import Mathlib.Data.Set.Basic
import Mathlib.Logic.Relation
import OffsetLogic.Proofs.Unification.Success

/-!
# Unification extends the bindings

To bind a name again is to overwrite it, and unification does bind names that are bound, at any
depth of its recursion. On top of **whatever bindings** it loses nothing all the same, because of
where a walk through them can end: at a name that is unbound, or that lies on a cycle of bindings of
variables to variables (`Substitution.isLoose_of_resolve`). Only such names are bound, and the
bindings of a cycle, which state relations between its members, are the only ones overwritten.

Two facts carry this from one equation to a whole run.

* New bindings connect names that are unbound or on a cycle, so no bound name comes to lie on a
  cycle that was not on one before, and what was not overwritten first is not overwritten later.
* A set of names that the bindings do not leave is not left by the new ones either
  (`Substitution.Extension.closed`). So a run stays among the names that can be reached from its
  equations through the bindings that it began with.

What is kept is an `Extension`; one equation gives one (`Substitution.Extension.solve`), and so does
a run (`Unified.extension`).

## No aliasing is assumed

Bindings that were written down by hand may have cycles around which the offsets do not add up to
zero, or bind a variable to a term that contains it. They have no representatives then, and the
theory of alias classes does not apply. What is left of it is the shape of the graph: which names
point to which, and where there are cycles. The walk is described by that alone
(`Substitution.transGen_of_leastSince`, `Substitution.isLoose_of_followFrom`), so the result holds
for every substitution.

## The set of names is fixed

What can be reached changes as bindings are made. The set `N` of a run is therefore chosen once, as
what can be reached at the beginning from either side, and it is closed under the bindings at the
beginning. Each step binds names of `N` to terms over `N`, so the set stays closed, and the
extensions of all steps are about the same set and can be composed (`Substitution.Extension.trans`).
-/

namespace OffsetLogic

open Relation Substitution

variable {n : Nat} {a b : Term} {es : List (Term × Term)} {N : Set String}
variable {s s₁ s' : Substitution} {x y z w : String} {j k : Int64} {t u : Term}

/-- All variables of the term are names of `N`. -/
def Term.Over (N : Set String) (t : Term) : Prop := ∀ x ∈ t.occurrences, x ∈ N

theorem Term.over_var : (Term.var x k).Over N ↔ x ∈ N := by
  simp [Over, occurrences]

namespace Substitution

/-! ### Where bindings lead -/

/-- `x` is bound to a variable named `y`. -/
def PointsTo (s : Substitution) (x y : String) : Prop := ∃ k, s.get? x = some (.var y k)

/-- Bindings of variables to variables lead from `x` back to `x`. -/
def OnCycle (s : Substitution) (x : String) : Prop := TransGen s.PointsTo x x

/-- The name is unbound, or it is on a cycle of bindings of variables to variables. -/
def IsLoose (s : Substitution) (x : String) : Prop := s.get? x = none ∨ s.OnCycle x

/-- `x` is bound to a term in which `y` occurs. -/
def Mentions (s : Substitution) (x y : String) : Prop :=
  ∃ t, s.get? x = some t ∧ y ∈ t.occurrences

/-- Bindings lead from a variable of `t` to `y`. -/
def Reaches (s : Substitution) (t : Term) (y : String) : Prop :=
  ∃ x ∈ t.occurrences, ReflTransGen s.Mentions x y

/-- The variable names of the bindings, both those bound and those of the terms. -/
def occurrences (s : Substitution) : List String :=
  s.bindings.flatMap fun e ↦ e.1 :: e.2.occurrences

theorem mem_occurrences_iff :
    x ∈ s.occurrences ↔ ∃ y t, s.get? y = some t ∧ (x = y ∨ x ∈ t.occurrences) := by
  simp only [occurrences, List.mem_flatMap, List.mem_cons, Prod.exists, get?_eq_some_iff_mem]

theorem PointsTo.mentions (h : s.PointsTo x y) : s.Mentions x y := by
  obtain ⟨k, hk⟩ := h
  exact ⟨_, hk, List.mem_singleton_self y⟩

theorem OnCycle.pointsTo (h : s.OnCycle x) : ∃ y, s.PointsTo x y := by
  obtain ⟨y, hy, -⟩ := TransGen.head'_iff.1 h
  exact ⟨y, hy⟩

/-- A name that has a value is not on a cycle. -/
theorem not_onCycle_of_rigid (h : s.Rigid x) : ¬ s.OnCycle x := by
  intro hx
  obtain ⟨y, k, hk⟩ := hx.pointsTo
  exact not_rigid_of_var hk h

/-- A bound name that is on no cycle is not a loose one. -/
theorem IsLoose.ne (hx : s.IsLoose x) (hy : s.get? y = some t) (hcycle : ¬ s.OnCycle y) :
    y ≠ x := by
  rintro rfl
  rcases hx with hx | hx
  · rw [hx] at hy
    cases hy
  · exact hcycle hx

/-- Names that can be reached from a term occur in it or in the bindings. -/
theorem Reaches.mem_occurrences (h : s.Reaches t y) : y ∈ t.occurrences ∨ y ∈ s.occurrences := by
  obtain ⟨x, hx, hxy⟩ := h
  rcases hxy.cases_tail with rfl | ⟨z, -, u, hu, hy⟩
  · exact .inl hx
  · exact .inr (mem_occurrences_iff.2 ⟨z, u, hu, .inr hy⟩)

/-- What is reached is left through its binding. -/
theorem Reaches.tail (h : s.Reaches t x) (hx : s.get? x = some u) (hy : y ∈ u.occurrences) :
    s.Reaches t y := by
  obtain ⟨z, hz, hzx⟩ := h
  exact ⟨z, hz, hzx.tail ⟨u, hx, hy⟩⟩

/-- The bindings of names of the set mention names of the set only. -/
def Closed (s : Substitution) (N : Set String) : Prop := ∀ x ∈ N, ∀ t, s.get? x = some t → t.Over N

theorem Closed.of_pointsTo (hN : s.Closed N) (h : ReflTransGen s.PointsTo x y) (hx : x ∈ N) :
    y ∈ N := by
  induction h with
  | refl => exact hx
  | tail _ hyz ih =>
    obtain ⟨k, hk⟩ := hyz
    exact Term.over_var.1 (hN _ ih _ hk)

/-- What can be reached from two terms is not left. -/
theorem closed_reaches (s : Substitution) (a b : Term) :
    s.Closed {y | s.Reaches a y ∨ s.Reaches b y} :=
  fun _ hx _ ht _ hy ↦ hx.imp (·.tail ht hy) (·.tail ht hy)

/-! ### Where walks end -/

/-- The least entry since `z` lies between `z` and where the path leads. -/
theorem transGen_of_leastSince {path : List (String × Int64)} {e : String × Int64}
    (hpath : Aliasing.Trail s path x k) (h : leastSince z path = some e) :
    ReflTransGen s.PointsTo z e.1 ∧ TransGen s.PointsTo e.1 x := by
  induction hpath generalizing e with
  | nil => cases h
  | @cons path x y j k l _ hx _ ih =>
    have hxy : s.PointsTo x y := ⟨l, hx⟩
    rw [leastSince] at h
    split at h
    · rename_i hxz
      obtain rfl := Option.some.inj h
      exact ⟨hxz ▸ .refl, .single hxy⟩
    · obtain ⟨least, hleast, rfl⟩ := Option.map_eq_some_iff.1 h
      obtain ⟨hfrom, hto⟩ := ih hleast
      split
      · exact ⟨hfrom.trans hto.to_reflTransGen, .single hxy⟩
      · exact ⟨hfrom, hto.tail hxy⟩

/-- A walk that ends at a variable ends at one without a binding, or has come around a cycle. -/
theorem isLoose_of_followFrom {path : List (String × Int64)} (hpath : Aliasing.Trail s path x k)
    (h : s.followFrom path x k = .ok (.free y j)) :
    ReflTransGen s.PointsTo x y ∧ s.IsLoose y := by
  fun_induction followFrom s path x k with
  | case1 path x k y' j' hleast =>
    cases h
    obtain ⟨hfrom, hto⟩ := transGen_of_leastSince hpath hleast
    exact ⟨hfrom, .inr (hto.trans_left hfrom)⟩
  | case2 path x k _ hx =>
    cases h
    exact ⟨.refl, .inl hx⟩
  | case3 path x k _ y' l hx j' hj ih =>
    obtain ⟨hreach, hloose⟩ := ih (.cons hpath hx (Int64.add?_eq_some_iff.1 hj)) h
    exact ⟨hreach.head ⟨l, hx⟩, hloose⟩
  | case4 => cases h
  | case5 => cases h

/-- A walk that ends at a value ends where variables lead to. -/
theorem reflTransGen_of_followFrom {path : List (String × Int64)}
    (h : s.followFrom path x k = .ok (.bound y u j)) :
    ReflTransGen s.PointsTo x y ∧ u.isVariable = false := by
  fun_induction followFrom s path x k with
  | case1 => cases h
  | case2 => cases h
  | case3 path x k _ y' l hx j' hj ih =>
    obtain ⟨hreach, hu⟩ := ih h
    exact ⟨hreach.head ⟨l, hx⟩, hu⟩
  | case4 => cases h
  | case5 path x k _ u hvar hx =>
    cases h
    exact ⟨.refl, Term.isVariable_eq_false hvar⟩

/-- A variable that a term resolves to is unbound or on a cycle. -/
theorem isLoose_of_resolve (h : s.resolve t = some (.var x k)) : s.IsLoose x := by
  unfold resolve at h
  split at h
  · split at h
    · rename_i hfollow
      cases h
      exact (isLoose_of_followFrom .nil hfollow).2
    · rename_i hfollow
      cases (Term.isVariable_of_shifted h).trans (reflTransGen_of_followFrom hfollow).2
    · cases h
  · rename_i hvar
    exact absurd (Option.some.inj h) (hvar x k)

/-- What a term resolves to stays in a set that the bindings do not leave. -/
theorem Closed.resolve (hN : s.Closed N) (ht : t.Over N) (h : s.resolve t = some u) : u.Over N := by
  unfold Substitution.resolve at h
  split at h
  · rename_i x k
    have hx : x ∈ N := Term.over_var.1 ht
    split at h
    · rename_i y j hfollow
      cases h
      exact Term.over_var.2 (hN.of_pointsTo (isLoose_of_followFrom .nil hfollow).1 hx)
    · rename_i y r j hfollow
      have hy : y ∈ N := hN.of_pointsTo (reflTransGen_of_followFrom hfollow).1 hx
      intro z hz
      rw [Term.occurrences_shifted h] at hz
      exact hN y hy r (get?_of_follow hfollow) z hz
    · cases h
  · exact Option.some.inj h ▸ ht

/-! ### Extensions -/

/-- The bindings of `s'` are those of `s` and new ones among the names of `N`, which may take the
places of bindings on cycles. -/
structure Extension (N : Set String) (s s' : Substitution) : Prop where
  /-- The bound names stay in their order, before all new ones. -/
  names : s.names <+: s'.names
  /-- A binding that is not on a cycle stays. -/
  keeps : ∀ {x t}, s.get? x = some t → ¬ s.OnCycle x → s'.get? x = some t
  /-- A binding is an old one, or binds a name of `N` to a term over `N`. -/
  made : ∀ {x t}, s'.get? x = some t → s.get? x = some t ∨ x ∈ N ∧ t.Over N
  /-- No bound name has come to lie on a cycle. -/
  onCycle : ∀ {x}, x ∈ s.names → s'.OnCycle x → s.OnCycle x

/-- Binding a name again keeps its place, and a new one comes last. -/
theorem names_prefix_bind (s : Substitution) (x : String) (t : Term) :
    s.names <+: (s.bind x t).names := by
  rw [names_bind]
  split
  · exact List.prefix_rfl
  · exact List.prefix_append _ _

namespace Extension

theorem refl (N : Set String) (s : Substitution) : s.Extension N s :=
  ⟨List.prefix_rfl, fun h _ ↦ h, .inl, fun _ h ↦ h⟩

/-- Two extensions among the same names make one; a cycle that is new after both was new after one
of them. -/
theorem trans (h : s.Extension N s₁) (h' : s₁.Extension N s') : s.Extension N s' where
  names := h.names.trans h'.names
  keeps hx hcycle := h'.keeps (h.keeps hx hcycle) fun hc ↦
    hcycle (h.onCycle (mem_names_of_get? hx) hc)
  made hx := (h'.made hx).elim h.made .inr
  onCycle hx hc := h.onCycle hx (h'.onCycle (h.names.subset hx) hc)

/-- Outside of `N` nothing is bound. -/
theorem get?_eq (h : s.Extension N s') (hx : x ∉ N) : s'.get? x = s.get? x := by
  cases hs' : s'.get? x with
  | some t => exact ((h.made hs').resolve_right fun hmem ↦ hx hmem.1).symm
  | none =>
    have hnames : x ∉ s.names := fun hmem ↦ get?_eq_none_iff.1 hs' (h.names.subset hmem)
    exact (get?_eq_none_iff.2 hnames).symm

/-- Names that the bindings do not leave are not left by the new ones. -/
theorem closed (h : s.Extension N s') (hN : s.Closed N) : s'.Closed N := by
  intro x hx t ht
  rcases h.made ht with ht | ⟨-, ht⟩
  · exact hN x hx t ht
  · exact ht

/-! ### One equation -/

/-- A loose name gets a value. -/
theorem bindRigid (hx : s.IsLoose x) (hxN : x ∈ N) (hu : u.isVariable = false) (huN : u.Over N) :
    s.Extension N (s.bind x u) where
  names := names_prefix_bind s x u
  keeps {y t} hy hcycle := by
    rw [get?_bind, if_neg (hx.ne hy hcycle)]
    exact hy
  made {y t} hy := by
    rw [get?_bind] at hy
    split at hy
    · rename_i hyx
      exact .inr ⟨hyx ▸ hxN, Option.some.inj hy ▸ huN⟩
    · exact .inl hy
  onCycle {y} _ hy := by
    refine TransGen.mono (fun z w hzw ↦ ?_) _ _ hy
    obtain ⟨k, hk⟩ := hzw
    rw [get?_bind] at hk
    split at hk
    · cases Option.some.inj hk
      cases hu
    · exact ⟨k, hk⟩

/-- Bindings that come to a name other than `x` and `y` do not pass the links between the two. -/
theorem transGen_of_link {f b : Int64}
    (h : TransGen ((s.bind x (.var y f)).bind y (.var x b)).PointsTo z w) (hwx : w ≠ x)
    (hwy : w ≠ y) : TransGen s.PointsTo z w := by
  have hstep : ∀ {z w : String}, ((s.bind x (.var y f)).bind y (.var x b)).PointsTo z w → w ≠ x →
      w ≠ y → z ≠ x ∧ z ≠ y ∧ s.PointsTo z w := by
    rintro z w ⟨k, hk⟩ hwx hwy
    rw [get?_bind, get?_bind] at hk
    split at hk
    · exact absurd (Term.var.inj (Option.some.inj hk)).1.symm hwx
    · split at hk
      · exact absurd (Term.var.inj (Option.some.inj hk)).1.symm hwy
      · rename_i hzy hzx
        exact ⟨hzx, hzy, k, hk⟩
  induction h with
  | single hzw => exact .single (hstep hzw hwx hwy).2.2
  | tail _ hvw ih =>
    obtain ⟨hvx, hvy, hvw⟩ := hstep hvw hwx hwy
    exact (ih hvx hvy).tail hvw

/-- Two loose names are linked in both directions. -/
theorem link (hx : s.IsLoose x) (hxN : x ∈ N) (hy : s.IsLoose y) (hyN : y ∈ N) {f b : Int64} :
    s.Extension N ((s.bind x (.var y f)).bind y (.var x b)) where
  names := (names_prefix_bind s x _).trans (names_prefix_bind _ y _)
  keeps {z t} hz hcycle := by
    rw [get?_bind, get?_bind, if_neg (hy.ne hz hcycle), if_neg (hx.ne hz hcycle)]
    exact hz
  made {z t} hz := by
    rw [get?_bind, get?_bind] at hz
    split at hz
    · rename_i hzy
      exact .inr ⟨hzy ▸ hyN, Option.some.inj hz ▸ Term.over_var.2 hxN⟩
    · split at hz
      · rename_i hzx
        exact .inr ⟨hzx ▸ hxN, Option.some.inj hz ▸ Term.over_var.2 hyN⟩
      · exact .inl hz
  onCycle {z} hz hcycle := by
    have hbound : ∀ {v}, s.IsLoose v → v ∈ s.names → s.OnCycle v := fun hv hmem ↦
      hv.resolve_left fun hnone ↦ get?_eq_none_iff.1 hnone hmem
    by_cases hzx : z = x
    · exact hbound (hzx ▸ hx) hz
    · by_cases hzy : z = y
      · exact hbound (hzy ▸ hy) hz
      · exact transGen_of_link hcycle hzx hzy

/-- **One equation.** Solving for a loose name extends the bindings. -/
theorem solve (hx : s.IsLoose x) (hxN : x ∈ N) (ht : ∀ y l, t = .var y l → s.IsLoose y)
    (htN : t.Over N) (h : s.solve x k t = some s') : s.Extension N s' := by
  obtain ⟨-, rfl⟩ | ⟨y, l, f, b, rfl, -, -, -, rfl⟩ | ⟨u, hu, -, hut, rfl⟩ := solve_eq_some h
  · exact .refl N _
  · exact link hx hxN (ht y l rfl) (Term.over_var.1 htN)
  · refine bindRigid hx hxN hu fun y hy ↦ htN y ?_
    rwa [Term.occurrences_shifted hut]

end Extension

end Substitution

/-! ### A whole run -/

/-- Solving equations over names that the bindings do not leave extends the bindings among these
names. -/
theorem Unified.extension (h : Unified es s s') (hN : s.Closed N)
    (hes : ∀ e ∈ es, e.1.Over N ∧ e.2.Over N) : s.Extension N s' := by
  induction h with
  | nil => exact .refl N _
  | @solve a b c d t x k es s s₁ s' hcd hc hd hsolve _ ih =>
    obtain ⟨haN, hbN⟩ := hes _ List.mem_cons_self
    have hcdN : c.Over N ∧ d.Over N := by
      rcases hcd with ⟨rfl, rfl⟩ | ⟨rfl, rfl⟩
      · exact ⟨haN, hbN⟩
      · exact ⟨hbN, haN⟩
    have hfirst : s.Extension N s₁ := by
      refine .solve (isLoose_of_resolve hc) ?_ (fun y l ht ↦ isLoose_of_resolve (ht ▸ hd)) ?_ hsolve
      · exact Term.over_var.1 (hN.resolve hcdN.1 hc)
      · exact hN.resolve hcdN.2 hd
    exact hfirst.trans (ih (hfirst.closed hN) fun e he ↦ hes e (List.mem_cons_of_mem _ he))
  | same _ _ _ ih => exact ih hN fun e he ↦ hes e (List.mem_cons_of_mem _ he)
  | @args a b g ts us args es s s' ha hb _ hargs _ ih =>
    obtain ⟨haN, hbN⟩ := hes _ List.mem_cons_self
    have hts : ∀ t ∈ ts, t.Over N := fun t ht x hx ↦
      hN.resolve haN ha x (Term.mem_occurrences_app.2 ⟨t, ht, hx⟩)
    have hus : ∀ u ∈ us, u.Over N := fun u hu x hx ↦
      hN.resolve hbN hb x (Term.mem_occurrences_app.2 ⟨u, hu, hx⟩)
    refine ih hN fun e he ↦ ?_
    rcases List.mem_append.1 he with he | he
    · rcases hargs with rfl | rfl
      · exact ⟨hts _ (List.of_mem_zip he).1, hus _ (List.of_mem_zip he).2⟩
      · exact ⟨hus _ (List.of_mem_zip he).1, hts _ (List.of_mem_zip he).2⟩
    · exact hes e (List.mem_cons_of_mem _ he)

/-- **Unification extends and never forgets.** On top of whatever bindings: the bound names stay
bound, in their order and before all new ones; a binding to a term that is not a variable is
unchanged, and so is every binding that is not on a cycle of bindings of variables to variables;
what cannot be reached from the two terms through the bindings is left as it is, bound or not; and
no variable name appears that does not occur in the two terms or in the bindings. -/
theorem extends_of_unify (h : (unify n a b s).run = some (some s')) :
    s.names <+: s'.names ∧
    (∀ x t, s.get? x = some t → t.isVariable = false → s'.get? x = some t) ∧
    (∀ x t, s.get? x = some t → ¬ s.OnCycle x → s'.get? x = some t) ∧
    (∀ x, ¬ s.Reaches a x → ¬ s.Reaches b x → s'.get? x = s.get? x) ∧
    ∀ x ∈ s'.occurrences, x ∈ a.occurrences ∨ x ∈ b.occurrences ∨ x ∈ s.occurrences := by
  let N : Set String := {x | s.Reaches a x ∨ s.Reaches b x}
  have hext : s.Extension N s' := by
    refine (unified_cons_of_unify h .nil).extension (closed_reaches s a b) fun e he ↦ ?_
    obtain rfl := List.mem_singleton.1 he
    exact ⟨fun x hx ↦ .inl ⟨x, hx, .refl⟩, fun x hx ↦ .inr ⟨x, hx, .refl⟩⟩
  have hN : ∀ x ∈ N, x ∈ a.occurrences ∨ x ∈ b.occurrences ∨ x ∈ s.occurrences := by
    rintro x (hx | hx)
    · exact hx.mem_occurrences.imp_right .inr
    · exact .inr hx.mem_occurrences
  refine ⟨hext.names, fun x t hx ht ↦ hext.keeps hx (not_onCycle_of_rigid ⟨t, hx, ht⟩),
    fun x t hx hcycle ↦ hext.keeps hx hcycle,
    fun x ha hb ↦ hext.get?_eq fun hx ↦ hx.elim ha hb, fun x hx ↦ ?_⟩
  obtain ⟨y, t, hy, hxy⟩ := mem_occurrences_iff.1 hx
  rcases hext.made hy with hy | ⟨hyN, htN⟩
  · exact .inr (.inr (mem_occurrences_iff.2 ⟨y, t, hy, hxy⟩))
  · rcases hxy with rfl | hxt
    · exact hN x hyN
    · exact hN x (htN x hxt)

/-- Before `f(t, v)` and `f(z, g(5))` are unified, `x` and `y` are on a cycle, `t` hangs off it, `v`
has a value, and `q` is not in reach. The binding of `x` to `y + 1` is overwritten, and all else is
kept. -/
theorem extends_of_unify_overwritten :
    let s := ofList [("v", .app "g" [.var "w" 0]), ("x", .var "y" 1), ("y", .var "x" (-1)),
      ("t", .var "x" 2), ("q", .var "r" 0)]
    let a := Term.app "f" [.var "t" 0, .var "v" 0]
    let b := Term.app "f" [.var "z" 0, .app "g" [.const (.int 5)]]
    ∃ s', (unify 3 a b s).run = some (some s') ∧
      s.names = ["v", "x", "y", "t", "q"] ∧ s'.names = ["v", "x", "y", "t", "q", "z", "w"] ∧
      s.names <+: s'.names ∧
      (s.get? "x" = some (.var "y" 1) ∧ s'.get? "x" = some (.var "z" (-2))) ∧
      (s.get? "v" = some (.app "g" [.var "w" 0]) ∧ s'.get? "v" = some (.app "g" [.var "w" 0])) ∧
      (¬ s.OnCycle "t" ∧ s'.get? "t" = some (.var "x" 2)) ∧
      (¬ s.Reaches a "q" ∧ ¬ s.Reaches b "q" ∧ s'.get? "q" = s.get? "q") ∧
      ∀ x ∈ s'.occurrences, x ∈ a.occurrences ∨ x ∈ b.occurrences ∨ x ∈ s.occurrences := by
  intro s a b
  have hrun : (unify 3 a b s).run = some (some (.ofList [("v", .app "g" [.var "w" 0]),
      ("x", .var "z" (-2)), ("y", .var "x" (-1)), ("t", .var "x" 2), ("q", .var "r" 0),
      ("z", .var "x" 2), ("w", .const (.int 5))])) := by decide +kernel
  have hmentions : ∀ x, x ∉ s.bindings.flatMap (fun e ↦ e.2.occurrences) →
      ∀ y, ¬ s.Mentions y x := by
    rintro x hx y ⟨t, ht, hmem⟩
    exact hx (List.mem_flatMap.2 ⟨_, get?_eq_some_iff_mem.1 ht, hmem⟩)
  have ht : ¬ s.OnCycle "t" := by
    intro h
    obtain ⟨y, -, hy⟩ := TransGen.tail'_iff.1 h
    exact hmentions "t" (by decide +kernel) y hy.mentions
  have hq : ∀ c : Term, "q" ∉ c.occurrences → ¬ s.Reaches c "q" := by
    rintro c hc ⟨x, hx, hxq⟩
    rcases hxq.cases_tail with rfl | ⟨y, -, hy⟩
    · exact hc hx
    · exact hmentions "q" (by decide +kernel) y hy
  have hqa : ¬ s.Reaches a "q" := hq a (by decide +kernel)
  have hqb : ¬ s.Reaches b "q" := hq b (by decide +kernel)
  obtain ⟨hnames, hvalue, hkept, hout, hocc⟩ := extends_of_unify hrun
  exact ⟨_, hrun, by decide +kernel, by decide +kernel, hnames,
    ⟨by decide +kernel, by decide +kernel⟩,
    ⟨by decide +kernel, hvalue "v" _ (by decide +kernel) rfl⟩,
    ⟨ht, hkept "t" _ (by decide +kernel) ht⟩, ⟨hqa, hqb, hout "q" hqa hqb⟩, hocc⟩

end OffsetLogic
