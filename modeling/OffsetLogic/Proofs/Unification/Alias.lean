import OffsetLogic.Unification

/-!
# Alias classes

Unification binds variables to variables in both directions, so the bindings of a substitution may
run in cycles. What they mean is an `Aliasing`: every name has a **representative**, its `root`, and
a **height** above it, and each binding `x ↦ y + k` says no more than that `x` and `y` have the same
representative and that `x` is `k` higher than `y`.

* Away from the representatives the bindings are well-founded: `depth` decreases along a link.
* A representative that is not bound to a constant or an application is the **least** name of its
  class. This is why the walk through the bindings, which answers the least name of the cycle that
  it has closed, answers the representative (`Aliasing.follow_free`).

Solving an equation keeps the aliasing, or joins two classes (`Aliasing.join`); both are put
together in `Aliasing.solve`.

## Why it is data

An aliasing is not determined by the bindings: heights are, but a depth is any measure that
decreases. It is a structure of functions and not a proposition, because constructions go on from
one aliasing to the next and say what becomes of its representatives. Where only its existence
matters, as for a whole run, statements ask for `Nonempty (Aliasing s)`.

## What the walk knows

The walk through the bindings has no representatives. It goes on from variable to variable until it
meets a name without a binding to a variable, or a name where it has been, and in the second case it
answers the least name since then. What is proved of it is that in each case this is the
representative, at its height: going on brings it closer, or it is at the representative, so the
cycle that it closes goes through the representative (`Aliasing.leastSince_spec`). All later proofs
are about representatives and heights, and none opens the walk again.

## Joining two classes

Two representatives are linked in both directions. The lesser one represents the new class, and the
heights of the other class are moved by the distance between the two. The names of the other class
are then further away, so their depths grow by the depth of the new representative.
-/

namespace OffsetLogic.Substitution

/-- The name is bound, and not to a variable. -/
def Rigid (s : Substitution) (x : String) : Prop :=
  ∃ t, s.get? x = some t ∧ t.isVariable = false

/-- Representatives and heights that agree with the bindings of variables to variables. -/
structure Aliasing (s : Substitution) where
  /-- The representative of the class of a name. -/
  root : String → String
  /-- The offset of a name from its representative. -/
  height : String → Int
  /-- A measure that decreases on the way to the representative. -/
  depth : String → Nat
  root_root : ∀ x, root (root x) = root x
  height_root : ∀ x, height (root x) = 0
  /-- A binding to a variable stays in the class, at its offset. -/
  link : ∀ {x y k}, s.get? x = some (.var y k) →
    root x = root y ∧ height x = height y + k.toInt ∧ (root x ≠ x → depth y < depth x)
  /-- A name that is not bound to a variable represents its class. -/
  root_eq : ∀ {x}, (∀ y k, s.get? x ≠ some (.var y k)) → root x = x
  /-- A representative without a value is the least name of its class. -/
  least : ∀ {x}, ¬ s.Rigid (root x) → ¬ x < root x

variable {s s' : Substitution} {x y z : String} {j k l : Int64} {t u : Term}

/-- A name that is bound to a variable has no value. -/
theorem not_rigid_of_var (h : s.get? x = some (.var y k)) : ¬ s.Rigid x := by
  rintro ⟨t, ht, htv⟩
  rw [h] at ht
  cases ht
  cases htv

theorem not_rigid_of_none (h : s.get? x = none) : ¬ s.Rigid x := by
  rintro ⟨t, ht, -⟩
  rw [h] at ht
  cases ht

/-- Without bindings every name is alone in its class. -/
def Aliasing.empty : Aliasing ∅ where
  root x := x
  height _ := 0
  depth _ := 0
  root_root _ := rfl
  height_root _ := rfl
  link h := nomatch h
  root_eq _ := rfl
  least {x} _ := String.lt_irrefl x

namespace Aliasing

variable (al : Aliasing s)

/-- A representative is at height zero. -/
theorem height_eq_zero (hx : al.root x = x) : al.height x = 0 := hx ▸ al.height_root x

/-- A name that does not represent its class is bound to a variable. -/
theorem exists_link (hx : al.root x ≠ x) : ∃ y k, s.get? x = some (.var y k) := by
  false_or_by_contra
  rename_i hno
  exact hx (al.root_eq fun y k hxy ↦ hno ⟨y, k, hxy⟩)

/-! ### The walk ends at the representative -/

/-- The path, latest entry first, consists of consecutive bindings that lead to `x + k`. -/
inductive Trail (s : Substitution) : List (String × Int64) → String → Int64 → Prop where
  | nil {x : String} {k : Int64} : Trail s [] x k
  | cons {path : List (String × Int64)} {x y : String} {j k l : Int64} : Trail s path x k →
      s.get? x = some (.var y l) → j.toInt = k.toInt + l.toInt → Trail s ((x, k) :: path) y j

/-- The least entry since `z` is in the class of the current variable, at its place, and it is the
representative unless the path has only come closer to it. -/
theorem leastSince_spec {path : List (String × Int64)} {e : String × Int64}
    (hpath : Trail s path x k) (h : leastSince z path = some e) :
    al.root e.1 = al.root x ∧ e.2.toInt + al.height e.1 = k.toInt + al.height x ∧
      ¬ s.Rigid e.1 ∧ (e.1 = al.root x ∨ al.depth x < al.depth z) := by
  induction hpath generalizing e with
  | nil => cases h
  | @cons path x y j k l _ hx hj ih =>
    obtain ⟨hroot, hheight, hdepth⟩ := al.link hx
    have hrigid := not_rigid_of_var hx
    have hplace : k.toInt + al.height x = j.toInt + al.height y := by omega
    rw [leastSince] at h
    split at h
    · rename_i hxz
      obtain rfl := Option.some.inj h
      refine ⟨hroot, hplace, hrigid, ?_⟩
      by_cases hx' : al.root x = x
      · exact .inl (hx'.symm.trans hroot)
      · exact .inr (hxz ▸ hdepth hx')
    · obtain ⟨least, hleast, rfl⟩ := Option.map_eq_some_iff.1 h
      obtain ⟨ihroot, ihheight, ihrigid, ih⟩ := ih hleast
      -- whichever entry is the lesser one, it lies in the class and in its place
      have hmem : ∀ e : String × Int64, e = (x, k) ∨ e = least → al.root e.1 = al.root y ∧
          e.2.toInt + al.height e.1 = j.toInt + al.height y ∧ ¬ s.Rigid e.1 := by
        rintro e (rfl | rfl)
        · exact ⟨hroot, hplace, hrigid⟩
        · exact ⟨ihroot.trans hroot, ihheight.trans hplace, ihrigid⟩
      by_cases hlt : x < least.1
      · simp only [hlt, if_true]
        obtain ⟨h₁, h₂, h₃⟩ := hmem (x, k) (.inl rfl)
        refine ⟨h₁, h₂, h₃, ?_⟩
        by_cases hx' : al.root x = x
        · exact .inl (hx'.symm.trans hroot)
        · refine .inr (Nat.lt_trans (hdepth hx') (ih.resolve_left fun hl ↦ ?_))
          exact al.least (hl ▸ ihrigid) (hl ▸ hlt)
      · simp only [hlt, if_false]
        obtain ⟨h₁, h₂, h₃⟩ := hmem least (.inr rfl)
        refine ⟨h₁, h₂, h₃, ?_⟩
        by_cases hx' : al.root x = x
        · have hge : ¬ least.1 < x := fun hl ↦
            al.least (ihroot ▸ hx'.symm ▸ hrigid) (by rwa [ihroot, hx'])
          exact .inl ((String.le_antisymm hlt hge).trans (hx'.symm.trans hroot))
        · rcases ih with hl | hl
          · exact .inl (hl.trans hroot)
          · exact .inr (Nat.lt_trans (hdepth hx') hl)

/-- A walk that ends at a variable ends at the representative, which has no value. -/
theorem followFrom_free {path : List (String × Int64)} (hpath : Trail s path x k)
    (h : s.followFrom path x k = .ok (.free y j)) :
    y = al.root x ∧ j.toInt = k.toInt + al.height x ∧ ¬ s.Rigid y := by
  fun_induction followFrom s path x k with
  | case1 path x k y' j' hleast =>
    cases h
    -- the walk came back to where it was, so it did not come closer
    obtain ⟨-, hheight, hrigid, hroot⟩ := al.leastSince_spec hpath hleast
    have hroot : y = al.root x := hroot.resolve_right (Nat.lt_irrefl _)
    have hzero : al.height y = 0 := hroot ▸ al.height_root x
    exact ⟨hroot, by dsimp only at hheight; omega, hrigid⟩
  | case2 path x k _ hx =>
    cases h
    have hroot : al.root y = y := al.root_eq fun _ _ hy ↦ by simp [hx] at hy
    exact ⟨hroot.symm, by simp [al.height_eq_zero hroot], not_rigid_of_none hx⟩
  | case3 path x k _ y' step hx j' hj ih =>
    obtain ⟨hroot, hheight, -⟩ := al.link hx
    have hj := Int64.add?_eq_some_iff.1 hj
    obtain ⟨h₁, h₂, h₃⟩ := ih (.cons hpath hx hj) h
    exact ⟨h₁.trans hroot.symm, by omega, h₃⟩
  | case4 => cases h
  | case5 => cases h

/-- A walk that ends at a value ends at that of the representative. -/
theorem followFrom_bound {path : List (String × Int64)}
    (h : s.followFrom path x k = .ok (.bound y u j)) :
    y = al.root x ∧ j.toInt = k.toInt + al.height x ∧ s.get? y = some u ∧ u.isVariable = false := by
  fun_induction followFrom s path x k with
  | case1 => cases h
  | case2 => cases h
  | case3 path x k _ y' step hx j' hj ih =>
    obtain ⟨hroot, hheight, -⟩ := al.link hx
    have hj := Int64.add?_eq_some_iff.1 hj
    obtain ⟨h₁, h₂, h₃⟩ := ih h
    exact ⟨h₁.trans hroot.symm, by omega, h₃⟩
  | case4 => cases h
  | case5 path x k _ u' hu hx =>
    cases h
    have hroot := al.root_eq fun y l hxy ↦ hu y l (by rw [← Option.some.inj (hx.symm.trans hxy)])
    exact ⟨hroot.symm, by simp [al.height_eq_zero hroot], hx, Term.isVariable_eq_false hu⟩

theorem follow_free (h : s.follow x k = .ok (.free y j)) :
    y = al.root x ∧ j.toInt = k.toInt + al.height x ∧ ¬ s.Rigid y :=
  al.followFrom_free .nil h

theorem follow_bound (h : s.follow x k = .ok (.bound y u j)) :
    y = al.root x ∧ j.toInt = k.toInt + al.height x ∧ s.get? y = some u ∧ u.isVariable = false :=
  al.followFrom_bound h

/-! ### Solving an equation -/

/-- The representatives after the classes of `m` and `o` were joined under `m`. -/
def joinRoot (m o z : String) : String :=
  if al.root z = m ∨ al.root z = o then m else al.root z

/-- Two classes without values joined under the lesser representative `m`, where `o` is `d` higher
than `m`. -/
def join {m o : String} {d : Int} {f b : Int64} (hm : al.root m = m) (ho : al.root o = o)
    (hmo : m < o) (hrm : ¬ s.Rigid m) (hro : ¬ s.Rigid o) (hf : f.toInt = -d) (hb : b.toInt = d)
    (hsm : s'.get? m = some (.var o f)) (hso : s'.get? o = some (.var m b))
    (hs : ∀ z, z ≠ m → z ≠ o → s'.get? z = s.get? z) : Aliasing s' :=
  have hne : m ≠ o := fun h ↦ String.lt_irrefl o (h ▸ hmo)
  { root := al.joinRoot m o
    height := fun z ↦ if al.root z = o then al.height z + d else al.height z
    depth := fun z ↦ if al.root z = o then al.depth z + al.depth m + 1 else al.depth z
    root_root := by
      intro z
      unfold joinRoot
      split
      · simp [hm]
      · simp_all [al.root_root]
    height_root := by
      intro z
      unfold joinRoot
      split
      · simp [hm, hne, al.height_eq_zero hm]
      · simp_all [al.root_root, al.height_root]
    link := by
      intro x y k hx
      unfold joinRoot
      by_cases hxm : x = m
      · subst hxm
        rw [hsm] at hx
        cases hx
        rw [hm, ho, if_pos (.inl rfl), if_pos (.inr rfl), if_neg hne, if_pos rfl,
          al.height_eq_zero hm, al.height_eq_zero ho, hf]
        exact ⟨rfl, by omega, fun h ↦ absurd rfl h⟩
      · by_cases hxo : x = o
        · subst hxo
          rw [hso] at hx
          cases hx
          rw [hm, ho, if_pos (.inr rfl), if_pos (.inl rfl), if_pos rfl, if_neg hne,
            al.height_eq_zero hm, al.height_eq_zero ho, hb]
          refine ⟨rfl, by omega, fun _ ↦ ?_⟩
          rw [if_neg hne, if_pos rfl]
          omega
        · rw [hs x hxm hxo] at hx
          obtain ⟨hroot, hheight, hdepth⟩ := al.link hx
          have hdepth' : al.root x ≠ x →
              al.depth y + al.depth m + 1 < al.depth x + al.depth m + 1 :=
            fun h ↦ by have := hdepth h; omega
          by_cases hyo : al.root y = o
          · simp only [hroot, hyo, if_true, or_true]
            exact ⟨trivial, by omega, fun _ ↦ hdepth' (hroot.trans hyo ▸ Ne.symm hxo)⟩
          · simp only [hroot, hyo, if_false, or_false]
            refine ⟨trivial, hheight, fun h ↦ hdepth fun hx' ↦ h ?_⟩
            rw [← hroot, hx', if_neg hxm]
    root_eq := by
      intro x hx
      have hxm : x ≠ m := fun h ↦ hx _ _ (h ▸ hsm)
      have hxo : x ≠ o := fun h ↦ hx _ _ (h ▸ hso)
      have := al.root_eq (hs x hxm hxo ▸ hx)
      simp [joinRoot, this, hxm, hxo]
    least := by
      intro x hx
      unfold joinRoot at hx ⊢
      split at hx <;> rename_i h
      · rw [if_pos h]
        -- `x` was in one of the two classes, so it is not less than their representatives
        have hle : ¬ x < al.root x := al.least (by rcases h with h | h <;> rwa [h])
        rcases h with h | h
        · exact h ▸ hle
        · exact fun hlt ↦ hle (h ▸ String.lt_trans hlt hmo)
      · rw [if_neg h]
        rw [not_or] at h
        refine al.least fun hr ↦ hx ?_
        rwa [Rigid, hs _ h.1 h.2] }

/-- Giving a value to a representative that has none changes no class. -/
def bindRigid (hx : al.root x = x) (hu : u.isVariable = false) : Aliasing (s.bind x u) where
  root := al.root
  height := al.height
  depth := al.depth
  root_root := al.root_root
  height_root := al.height_root
  link {z y k} hz := by
    rw [get?_bind] at hz
    split at hz
    · cases hz
      cases hu
    · exact al.link hz
  root_eq {z} hz := by
    by_cases hzx : z = x
    · exact hzx ▸ hx
    · simp only [get?_bind, if_neg hzx] at hz
      exact al.root_eq hz
  least {z} hz := by
    refine al.least fun ⟨t, ht, htv⟩ ↦ hz ?_
    unfold Rigid
    rw [get?_bind]
    split
    · exact ⟨u, rfl, hu⟩
    · exact ⟨t, ht, htv⟩

end Aliasing

/-! ### Solving and resolving -/

/-- To solve an equation is to find it solved, to link two variables in both directions, or to bind
a variable to the term that it is equal to. -/
theorem solve_eq_some (h : s.solve x k t = some s') :
    t = .var x k ∧ s' = s ∨
      (∃ y l f b, t = .var y l ∧ x ≠ y ∧ f.toInt = l.toInt - k.toInt ∧
        b.toInt = k.toInt - l.toInt ∧ s' = (s.bind x (.var y f)).bind y (.var x b)) ∨
      ∃ u, u.isVariable = false ∧ t.isVariable = false ∧ u.shifted k = some t ∧
        s' = s.bind x u := by
  unfold solve at h
  split at h
  · rename_i y l
    split at h
    · rename_i hxy
      split at h
      · rename_i hkl
        exact .inl ⟨by rw [hxy, hkl], (Option.some.inj h).symm⟩
      · cases h
    · rename_i hxy
      obtain ⟨f, hf, h⟩ := Option.bind_eq_some_iff.1 h
      obtain ⟨b, hb, h⟩ := Option.bind_eq_some_iff.1 h
      exact .inr (.inl ⟨y, l, f, b, rfl, hxy, Int64.sub?_eq_some_iff.1 hf,
        Int64.sub?_eq_some_iff.1 hb, (Option.some.inj h).symm⟩)
  · rename_i n
    obtain ⟨m, hm, rfl⟩ := Option.map_eq_some_iff.1 h
    -- the value is the number that the offset takes to `n`
    have hn : m.add? k = some n :=
      Int64.add?_eq_some_iff.2 (by have := Int64.sub?_eq_some_iff.1 hm; omega)
    exact .inr (.inr ⟨_, rfl, rfl, by rw [Term.shifted_int, hn]; rfl, rfl⟩)
  all_goals
    split at h
    · rename_i hk
      exact .inr (.inr ⟨_, rfl, rfl, by rw [hk, Term.shifted_zero], (Option.some.inj h).symm⟩)
    · cases h

/-- Two representatives without values that are linked in both directions represent one class, and
one of them represents it still. -/
theorem Aliasing.exists_join (al : Aliasing s) (hx : al.root x = x) (hrx : ¬ s.Rigid x)
    (hy : al.root y = y) (hry : ¬ s.Rigid y) (hxy : x ≠ y) {f b : Int64}
    (hfb : f.toInt = -b.toInt) :
    ∃ (al' : Aliasing ((s.bind x (.var y f)).bind y (.var x b))) (m : String), (m = x ∨ m = y) ∧
      ∀ z, al'.root z = if al.root z = x ∨ al.root z = y then m else al.root z := by
  have hget : ∀ z, ((s.bind x (.var y f)).bind y (.var x b)).get? z =
      if z = y then some (.var x b) else if z = x then some (.var y f) else s.get? z := by
    intro z
    rw [get?_bind, get?_bind]
  -- the lesser of the two names represents the joined class
  rcases String.le_total x y with hle | hle
  · have hlt : x < y := Decidable.not_not.1 fun hlt ↦ hxy (String.le_antisymm hle hlt)
    exact ⟨al.join (d := b.toInt) (f := f) hx hy hlt hrx hry hfb rfl (by simp [hget, hxy])
      (by simp [hget]) fun z hzx hzy ↦ by simp [hget, hzx, hzy], x, .inl rfl, fun z ↦ rfl⟩
  · have hlt : y < x := Decidable.not_not.1 fun hlt ↦ hxy (String.le_antisymm hlt hle)
    refine ⟨al.join (d := f.toInt) (f := b) hy hx hlt hry hrx (by omega) rfl (by simp [hget])
      (by simp [hget, hxy]) fun z hzy hzx ↦ by simp [hget, hzx, hzy], y, .inr rfl, fun z ↦ ?_⟩
    simp only [or_comm (a := al.root z = x)]
    rfl

/-- Solving an equation between representatives without values keeps an aliasing. -/
theorem Aliasing.solve (al : Aliasing s) (hx : al.root x = x) (hrx : ¬ s.Rigid x)
    (ht : ∀ y l, t = .var y l → al.root y = y ∧ ¬ s.Rigid y) (h : s.solve x k t = some s') :
    Nonempty (Aliasing s') := by
  obtain ⟨-, rfl⟩ | ⟨y, l, f, b, rfl, hxy, hf, hb, rfl⟩ | ⟨u, hu, -, -, rfl⟩ := solve_eq_some h
  · exact ⟨al⟩
  · obtain ⟨hy, hry⟩ := ht y l rfl
    obtain ⟨al', -⟩ := al.exists_join hx hrx hy hry hxy (f := f) (b := b) (by omega)
    exact ⟨al'⟩
  · exact ⟨al.bindRigid hx hu⟩

end OffsetLogic.Substitution
