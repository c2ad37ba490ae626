import OffsetLogic.Proofs.Resolution.Inference
import OffsetLogic.Proofs.Search.Known
import OffsetLogic.Proofs.Substitution.Applied
import OffsetLogic.Proofs.Unification.Success

/-!
# Flat clauses

A literal is flat when it is an application to constants and variables. Resolution does not leave
this fragment: unifying flat literals, or their arguments, binds names to constants and variables
only (`Unified.shallow`), and applying such bindings to a flat literal gives a flat literal. So all
clauses of a run on flat clauses are flat (`Search.Reached.flat`).

**With offsets or without.** The same holds when no variable has an offset, because sums and
differences of zeros are zero. So the fragment has a parameter, `Offsets`, and each lemma is stated
once for both.

## Why the fragment is closed

Two flat literals of one name are unified argument by argument, and an argument is a leaf: a
constant or a variable. Bindings are shallow when they bind names to leaves, and a leaf resolved
through shallow bindings is a leaf again. So every equation that comes up below the top is one
between leaves, whatever was bound before, and solving it binds a name to a leaf. Nothing is ever
bound to an application, and an equation never goes deeper than the arguments, which is why a budget
of two is enough for flat literals (`OffsetLogic.Proofs.Resolution.Total`).

With offsets a leaf may be resolved to a variable whose offset is a sum of offsets on the way. For
the fragment without offsets it has to be seen that this sum is zero: the heights of the aliasing
are, since each binding in the direction of the representative adds an offset of the fragment
(`Substitution.Shallow.allows_height`).

A run is followed in the usual way, from the parts to the whole: renaming, the remainder of a clash,
the unifier applied to it, factoring and naming each keep clauses flat, so an inference from flat
clauses has a flat conclusion (`isFlat_of_infers`).
-/

namespace OffsetLogic

open Substitution

/-! ### Flat literals and shallow bindings -/

/-- Which offsets the variables of a fragment may have. -/
inductive Offsets where
  /-- All offsets. -/
  | any
  /-- The offset zero only. -/
  | zero
deriving DecidableEq

namespace Offsets

/-- Whether a fragment has an offset. -/
def allows : Offsets → Int → Bool
  | any, _ => true
  | zero, i => i == 0

variable {o : Offsets} {i j : Int}

/-- The offsets of a fragment can be added. -/
theorem allows_add (hi : o.allows i = true) (hj : o.allows j = true) : o.allows (i + j) = true := by
  cases o <;> simp_all [allows]

theorem allows_sub (hi : o.allows i = true) (hj : o.allows j = true) : o.allows (i - j) = true := by
  cases o <;> simp_all [allows]

end Offsets

/-- Whether a term is a constant, or a variable with an offset of the fragment. -/
def Term.isLeaf (o : Offsets) : Term → Bool
  | .const _ => true
  | .var _ k => o.allows k.toInt
  | .app .. => false

/-- Whether a term is an application to constants and variables. -/
def Term.isFlat (o : Offsets) : Term → Bool
  | .app _ ts => ts.all (isLeaf o)
  | _ => false

/-- Whether every literal is flat. -/
def Clause.isFlat (o : Offsets) (c : Clause) : Bool := c.atoms.all (Term.isFlat o)

/-- Names are bound to constants and variables only. -/
def Substitution.Shallow (o : Offsets) (s : Substitution) : Prop :=
  ∀ x t, s.get? x = some t → t.isLeaf o = true

variable {n : Nat} {o : Offsets} {s s' : Substitution} {t u : Term} {x : String} {k : Int64}
variable {c d : Clause}

/-- The shifts of a constant are constants. -/
theorem Term.isLeaf_of_shifted (h : t.shifted k = some u) (ht : t.isVariable = false) :
    u.isLeaf o = t.isLeaf o := by
  unfold shifted at h
  split at h
  · rw [Option.some.inj h]
  · split at h
    · cases ht
    · obtain ⟨_, _, rfl⟩ := Option.map_eq_some_iff.1 h
      rfl
    · cases h
    · cases h

/-- Renaming takes leaves to leaves, and nothing else to them. -/
theorem Term.isLeaf_rename (f : String → String) (t : Term) :
    (t.rename f).isLeaf o = t.isLeaf o := by
  cases t <;> rfl

/-- Renaming takes flat literals to flat literals, and nothing else to them. -/
theorem Term.isFlat_rename (f : String → String) (t : Term) :
    (t.rename f).isFlat o = t.isFlat o := by
  cases t with
  | const | var => rfl
  | app g ts =>
    rw [rename, renameArgs_eq_map, isFlat, isFlat, List.all_map]
    exact congrArg ts.all (funext (isLeaf_rename f))

/-- An application is flat when its arguments are leaves. -/
theorem Term.isFlat_app_iff {g : String} {ts : List Term} :
    (app g ts).isFlat o = true ↔ ∀ t ∈ ts, t.isLeaf o = true :=
  List.all_eq_true

/-! ### Unification of flat literals -/

theorem Substitution.shallow_empty : (∅ : Substitution).Shallow o := fun _ _ h ↦ nomatch h

/-- Solving a variable of the fragment for a leaf binds it to a leaf, in both directions for a
variable. -/
theorem Substitution.Shallow.solve (hs : s.Shallow o) (hk : o.allows k.toInt = true)
    (ht : t.isLeaf o = true) (h : s.solve x k t = some s') : s'.Shallow o := by
  obtain ⟨-, rfl⟩ | ⟨y, l, f, b, rfl, -, hf, hb, rfl⟩ | ⟨u, hu, -, hut, rfl⟩ := solve_eq_some h
  · exact hs
  · intro z r hz
    rw [get?_bind, get?_bind] at hz
    split at hz
    · cases hz
      rw [Term.isLeaf, hb]
      exact Offsets.allows_sub hk ht
    · split at hz
      · cases hz
        rw [Term.isLeaf, hf]
        exact Offsets.allows_sub ht hk
      · exact hs z r hz
  · intro z r hz
    rw [get?_bind] at hz
    split at hz
    · cases hz
      rw [← Term.isLeaf_of_shifted hut hu, ht]
    · exact hs z r hz

/-- The offsets along shallow bindings add up to offsets of the fragment. -/
theorem Substitution.Shallow.allows_height (hs : s.Shallow o) (al : s.Aliasing) (x : String) :
    o.allows (al.height x) = true := by
  induction hd : al.depth x using Nat.strongRecOn generalizing x with
  | ind d ih =>
    subst hd
    by_cases hx : al.root x = x
    · rw [al.height_eq_zero hx]
      cases o <;> rfl
    · obtain ⟨y, k, hxy⟩ := al.exists_link hx
      obtain ⟨-, hheight, hdepth⟩ := al.link hxy
      rw [hheight]
      exact Offsets.allows_add (ih _ (hdepth hx) y rfl) (hs x _ hxy)

/-- A leaf stands for a leaf under shallow bindings. -/
theorem Substitution.Shallow.isLeaf_resolve (hs : s.Shallow o) (al : s.Aliasing)
    (ht : t.isLeaf o = true) (h : s.resolve t = some u) : u.isLeaf o = true := by
  obtain ⟨x, k, j, rfl, rfl, hj, -⟩ | ⟨x, k, j, r, -, hr, hrv, -, hu⟩ | ⟨-, rfl⟩ :=
    al.resolve_cases h
  · rw [Term.isLeaf, hj]
    exact Offsets.allows_add ht (hs.allows_height al x)
  · rw [Term.isLeaf_of_shifted hu hrv, hs _ r hr]
  · exact ht

/-- A flat literal is no variable, so resolving leaves it as it is. -/
theorem resolve_eq_self_of_isFlat (ht : t.isFlat o = true) (h : s.resolve t = some u) : u = t := by
  cases t with
  | const | var => cases ht
  | app g ts =>
    cases h
    rfl

/-- Unifying flat literals, or arguments of such literals, gives shallow bindings. -/
theorem Unified.shallow {es : List (Term × Term)} (h : Unified es s s')
    (al : Nonempty s.Aliasing) (hs : s.Shallow o)
    (hes : ∀ e ∈ es, e.1.isLeaf o = true ∧ e.2.isLeaf o = true ∨
      e.1.isFlat o = true ∧ e.2.isFlat o = true) : s'.Shallow o := by
  induction h with
  | nil => exact hs
  | @solve a b c d t x k es s s₁ s' hcd hc hd hsolve _ ih =>
    obtain ⟨al⟩ := al
    obtain ⟨hx, hrx⟩ := al.of_resolve_eq_var hc
    have hleaf : c.isLeaf o = true ∧ d.isLeaf o = true := by
      obtain ⟨ha, hb⟩ | ⟨ha, hb⟩ := hes (a, b) List.mem_cons_self
      · obtain ⟨rfl, rfl⟩ | ⟨rfl, rfl⟩ := hcd <;> constructor <;> assumption
      · -- a literal does not resolve to a variable
        have hcflat : c.isFlat o = true := by obtain ⟨rfl, -⟩ | ⟨rfl, -⟩ := hcd <;> assumption
        cases resolve_eq_self_of_isFlat hcflat hc
        cases hcflat
    refine ih (al.solve hx hrx (fun y l ht ↦ al.of_resolve_eq_var (ht ▸ hd)) hsolve)
      (hs.solve (hs.isLeaf_resolve al hleaf.1 hc) (hs.isLeaf_resolve al hleaf.2 hd) hsolve)
      fun e he ↦ hes e (List.mem_cons_of_mem _ he)
  | same _ _ _ ih => exact ih al hs fun e he ↦ hes e (List.mem_cons_of_mem _ he)
  | @args a b g ts us args es s s' ha hb hlen hargs _ ih =>
    obtain ⟨al⟩ := al
    obtain ⟨hal, -⟩ | ⟨haf, hbf⟩ := hes (a, b) List.mem_cons_self
    · cases hs.isLeaf_resolve al hal ha
    · rw [← resolve_eq_self_of_isFlat haf ha] at haf
      rw [← resolve_eq_self_of_isFlat hbf hb] at hbf
      -- literals resolve to themselves, so the new equations are between their arguments
      have hleaf : ∀ e ∈ args, e.1.isLeaf o = true ∧ e.2.isLeaf o = true := by
        intro e he
        obtain rfl | rfl := hargs
        · have := List.of_mem_zip he
          exact ⟨Term.isFlat_app_iff.1 haf _ this.1, Term.isFlat_app_iff.1 hbf _ this.2⟩
        · have := List.of_mem_zip he
          exact ⟨Term.isFlat_app_iff.1 hbf _ this.1, Term.isFlat_app_iff.1 haf _ this.2⟩
      refine ih ⟨al⟩ hs fun e he ↦ ?_
      exact (List.mem_append.1 he).elim (fun he ↦ .inl (hleaf e he))
        fun he ↦ hes e (List.mem_cons_of_mem _ he)

/-- Unifying two leaves keeps bindings shallow. -/
theorem shallow_of_unify_leaf (hs : s.Shallow o) (al : Nonempty s.Aliasing)
    (ht : t.isLeaf o = true) (hu : u.isLeaf o = true) (h : (unify n t u s).run = some (some s')) :
    s'.Shallow o := by
  have hunified : Unified [(t, u)] s s' := unified_cons_of_unify h .nil
  refine hunified.shallow al hs fun e he ↦ ?_
  rw [List.mem_singleton.1 he]
  exact .inl ⟨ht, hu⟩

/-- The unifier of two flat literals is shallow. -/
theorem shallow_of_mgu? {a b : Term} (ha : a.isFlat o = true) (hb : b.isFlat o = true)
    (h : mgu? n a b = some (some s)) : s.Shallow o := by
  refine (unified_of_mgu? h).shallow ⟨.empty⟩ Substitution.shallow_empty fun e he ↦ ?_
  rw [List.mem_singleton.1 he]
  exact .inr ⟨ha, hb⟩

/-! ### Images of flat clauses -/

/-- The image of a leaf is a leaf: a value is a constant, and that is its own image. -/
theorem Substitution.Shallow.isLeaf_apply (hs : s.Shallow o) (al : s.Aliasing)
    (ht : t.isLeaf o = true) (h : s.apply t = .ok u) : u.isLeaf o = true := by
  rw [apply] at h
  cases t with
  | const a =>
    rw [applyAvoiding_eq_bindM] at h
    cases h
    rfl
  | app => cases ht
  | var x k =>
    obtain ⟨y, j, hfollow, rfl⟩ | ⟨y, r, j, hfollow, ⟨hy, -⟩ | ⟨-, r', hr', hshift⟩⟩ :=
      applyAvoiding_var_eq_ok.1 h
    · obtain ⟨-, hj, -⟩ := al.follow_free hfollow
      rw [Term.isLeaf, hj]
      exact Offsets.allows_add ht (hs.allows_height al x)
    · cases hy
    · obtain ⟨-, -, hget, hrv⟩ := al.follow_bound hfollow
      have hr := hs y r hget
      cases r with
      | var => cases hrv
      | app => cases hr
      | const a =>
        rw [applyAvoiding_eq_bindM] at hr'
        cases hr'
        exact Term.isLeaf_of_shifted hshift rfl

/-- The image of a flat literal under shallow bindings is flat, argument by argument. -/
theorem Substitution.Shallow.isFlat_apply (hs : s.Shallow o) (al : s.Aliasing)
    (ht : t.isFlat o = true) (h : s.apply t = .ok u) : u.isFlat o = true := by
  cases t with
  | const | var => cases ht
  | app g ts =>
    rw [apply, applyAvoiding_eq_bindM] at h
    obtain ⟨us, hus, rfl⟩ := Term.bindM_app_eq_ok.1 h
    refine Term.isFlat_app_iff.2 fun u hu ↦ ?_
    obtain ⟨t, ht', htu⟩ := (mem_of_mapM_eq_ok hus).1 hu
    rw [← applyAvoiding_eq_bindM] at htu
    exact hs.isLeaf_apply al (Term.isFlat_app_iff.1 ht t ht') htu

namespace Clause

theorem isFlat_iff : c.isFlat o = true ↔
    (∀ t, t ∈ c.pos → t.isFlat o = true) ∧ ∀ t, t ∈ c.neg → t.isFlat o = true := by
  simp only [isFlat, atoms, List.all_append, Bool.and_eq_true, List.all_eq_true,
    SortedSet.mem_toList]

theorem isFlat_rename (f : String → String) (hc : c.isFlat o = true) :
    (c.rename f).isFlat o = true := by
  obtain ⟨hpos, hneg⟩ := isFlat_iff.1 hc
  refine isFlat_iff.2 ⟨fun t ht ↦ ?_, fun t ht ↦ ?_⟩
  · obtain ⟨u, hu, rfl⟩ := SortedSet.mem_map.1 ht
    rw [Term.isFlat_rename, hpos u hu]
  · obtain ⟨u, hu, rfl⟩ := SortedSet.mem_map.1 ht
    rw [Term.isFlat_rename, hneg u hu]

/-- Shallow bindings keep clauses flat. -/
theorem isFlat_apply (hs : s.Shallow o) (al : s.Aliasing) (hc : c.isFlat o = true)
    (h : c.apply s = .ok d) : d.isFlat o = true := by
  obtain ⟨hpos, hneg⟩ := isFlat_iff.1 hc
  refine isFlat_iff.2 ⟨fun u hu ↦ ?_, fun u hu ↦ ?_⟩
  · obtain ⟨t, ht, htu⟩ := (mem_pos_apply h).1 hu
    exact hs.isFlat_apply al (hpos t ht) htu
  · obtain ⟨t, ht, htu⟩ := (mem_neg_apply h).1 hu
    exact hs.isFlat_apply al (hneg t ht) htu

/-- Both members of a pair of literals of a flat clause are flat. -/
theorem isFlat_of_mem_pairs {e : Term × Term} (hc : c.isFlat o = true) (he : e ∈ c.pairs) :
    e.1.isFlat o = true ∧ e.2.isFlat o = true := by
  obtain ⟨hpos, hneg⟩ := isFlat_iff.1 hc
  obtain ⟨h₁, h₂⟩ | ⟨h₁, h₂⟩ := mem_of_mem_pairs he
  · exact ⟨hpos _ h₁, hpos _ h₂⟩
  · exact ⟨hneg _ h₁, hneg _ h₂⟩

/-- Factoring keeps clauses flat, since each unifier that it applies is shallow. -/
theorem Factored.isFlat (h : c.Factored n d) (hc : c.isFlat o = true) : d.isFlat o = true := by
  induction h with
  | done => exact hc
  | merge hpairs _ hs happly _ _ ih =>
    obtain ⟨al⟩ := nonempty_aliasing_of_mgu? hs
    have he := isFlat_of_mem_pairs hc (hpairs ▸ List.mem_append_right _ List.mem_cons_self)
    exact ih (isFlat_apply (shallow_of_mgu? he.1 he.2 hs) al hc happly)

end Clause

/-! ### Inferences from flat clauses -/

namespace Clash

variable {k : Clash} {i : Inference}

theorem isFlat_remainder (hl : k.left.isFlat o = true) (hr : k.right.isFlat o = true) :
    k.remainder.isFlat o = true := by
  obtain ⟨hlp, hln⟩ := Clause.isFlat_iff.1 hl
  obtain ⟨hrp, hrn⟩ := Clause.isFlat_iff.1 hr
  refine Clause.isFlat_iff.2 ⟨fun t ht ↦ ?_, fun t ht ↦ ?_⟩
  · exact (SortedSet.mem_union.1 ht).elim (fun ht ↦ hlp t (SortedSet.mem_erase.1 ht).1) (hrp t)
  · exact (SortedSet.mem_union.1 ht).elim (hln t) fun ht ↦ hrn t (SortedSet.mem_erase.1 ht).1

/-- The conclusion of an inference from flat clauses is flat. -/
theorem isFlat_resolvent (h : (k.infer? n).run = some (.ok (some i))) (hl : k.left.isFlat o = true)
    (hr : k.right.isFlat o = true) (hp : k.positive ∈ k.left.pos) (hn : k.negated ∈ k.right.neg) :
    i.resolvent.isFlat o = true := by
  obtain ⟨s, c, d, hs, hc, hd, hi, -⟩ := infer?_eq_ok_some h
  obtain ⟨al⟩ := nonempty_aliasing_of_mgu? hs
  have hshallow := shallow_of_mgu? ((Clause.isFlat_iff.1 hl).1 _ hp)
    ((Clause.isFlat_iff.1 hr).2 _ hn) hs
  rw [hi]
  exact Clause.isFlat_rename _ ((Clause.factored_of_factor hd).isFlat
    (Clause.isFlat_apply hshallow al (isFlat_remainder hl hr) hc))

end Clash

/-- Resolving keeps clauses flat. -/
theorem isFlat_of_infers {a b : Clause} (h : Search.Infers (resolve n) a b c)
    (ha : a.isFlat o = true) (hb : b.isFlat o = true) : c.isFlat o = true := by
  obtain ⟨r, hr, -, hc⟩ := h
  obtain ⟨i, hi, -, rfl⟩ := mem_resolvents.1 hc
  obtain ⟨k, hk, hinfer⟩ := exists_of_mem_inferFrom hr hi
  obtain ⟨hl, hr, hp, hn⟩ := sides_of_mem_clashes (P := fun c ↦ c.isFlat o = true) hk
    (fun f _ ↦ Clause.isFlat_rename f) ha hb
  exact k.isFlat_resolvent hinfer hl hr hp hn

/-- All clauses of a run on flat clauses are flat. -/
theorem Search.Reached.flat {config : Config} {clauses : List Clause} {st : Search}
    {todo : List (ProofTree × ProofTree)} (h : Reached (resolve n) config clauses st todo)
    (hflat : ∀ c ∈ clauses, c.isFlat o = true) : ∀ t ∈ st.trees, t.clause.isFlat o = true :=
  h.clause_induction hflat fun _ _ _ _ _ ha hb hc ↦ isFlat_of_infers hc ha hb

end OffsetLogic
