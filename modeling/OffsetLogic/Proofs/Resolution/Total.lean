import OffsetLogic.Proofs.Ground.Resolution
import OffsetLogic.Proofs.Rules.Herbrand

/-!
# Resolution of flat clauses is total

On flat clauses without offsets nothing can go wrong and nothing can run on. Names are bound to
constants and plain variables, so every walk through the bindings ends, no offset overflows or has
to be absorbed, and two arguments are unified in one step. So a budget of two is enough for every
unification, to apply a unifier never fails, factoring ends because it makes the clause smaller, and
resolving two clauses **completes without an error** (`exists_resolve_of_isFlat`).

That the budget does not depend on the clauses is what makes searches in flat clauses end: the
rounds and the unifications share one budget, and one that is large enough for the rounds is large
enough for every unification in them.

The lemmas follow the layers of a resolution. For each there is one that says it has an answer and
no error: a unification, the application of a unifier, a merge, factoring, the test for tautologies,
a clash. Lists are handled once, by the lemma that a search through a list completes when each
member is answered (`exists_findSomeM?`), and by its companions for folds and tests. What the
answers are is not said here; for that there are the inversions of
`OffsetLogic.Proofs.Resolution.Inference`.

The equations are answered also when there are offsets, since whether the offsets match is decided
in the same step. Only the application of a unifier needs that there are none.
-/

namespace OffsetLogic

open Substitution

variable {n : Nat} {o : Offsets} {s : Substitution} {a b t : Term} {c d : Clause}

/-! ### Unification -/

/-- An equation between leaves is answered in one step. -/
theorem exists_unify_run (hs : s.Shallow o) (al : s.Aliasing) (ha : a.isLeaf o = true)
    (hb : b.isLeaf o = true) : ∃ r, (unify (n + 1) a b s).run = some r := by
  rw [unify]
  cases ht : s.resolve a with
  | none => cases s.resolve b <;> exact ⟨_, rfl⟩
  | some t =>
    have htl := hs.isLeaf_resolve al ha ht
    cases hu : s.resolve b with
    | none => cases t <;> exact ⟨_, rfl⟩
    | some u =>
      have hul := hs.isLeaf_resolve al hb hu
      cases t with
      | app => cases htl
      | var x k => exact ⟨_, rfl⟩
      | const v =>
        cases u with
        | app => cases hul
        | var y l => exact ⟨_, rfl⟩
        | const w => by_cases hvw : v = w <;> exact ⟨_, by simp [hvw]; rfl⟩

/-- Equations between leaves are answered one after another, since each keeps the bindings shallow.
-/
theorem exists_unifyAll_run {es : List (Term × Term)} (hs : s.Shallow o)
    (al : Nonempty s.Aliasing) (hes : ∀ e ∈ es, e.1.isLeaf o = true ∧ e.2.isLeaf o = true) :
    ∃ r, (unifyAll (n + 1) es s).run = some r := by
  induction es generalizing s with
  | nil => exact ⟨_, rfl⟩
  | cons e es ih =>
    obtain ⟨ht, hu⟩ := hes e List.mem_cons_self
    obtain ⟨r, hr⟩ := exists_unify_run (n := n) hs al.some ht hu
    rw [unifyAll, List.foldlM_cons, OptionT.run_bind, hr]
    cases r with
    | none => exact ⟨none, rfl⟩
    | some s₁ =>
      -- the bindings made so far stay shallow
      exact ih (shallow_of_unify_leaf hs al ht hu hr) ((unified_cons_of_unify hr .nil).aliasing al)
        fun e he ↦ hes e (List.mem_cons_of_mem _ he)

/-- Whether two flat literals unify is answered within a budget of two. -/
theorem exists_mgu?_run (ha : a.isFlat o = true) (hb : b.isFlat o = true) (n : Nat) :
    ∃ r, mgu? (n + 2) a b = some r := by
  cases a with
  | const | var => cases ha
  | app g ts =>
    cases b with
    | const | var => cases hb
    | app h us =>
      rw [mgu?, unify_app_app]
      split
      · exact exists_unifyAll_run Substitution.shallow_empty ⟨.empty⟩ fun e he ↦
          ⟨Term.isFlat_app_iff.1 ha _ (List.of_mem_zip he).1,
            Term.isFlat_app_iff.1 hb _ (List.of_mem_zip he).2⟩
      · exact ⟨none, rfl⟩

/-- A search through a list completes when each of its members is answered. -/
theorem exists_findSomeM? {α β ε : Type} {f : α → ExceptT ε Budgeted (Option β)} {l : List α}
    (h : ∀ a ∈ l, ∃ r, (f a).run = some (.ok r)) : ∃ r, (l.findSomeM? f).run = some (.ok r) := by
  induction l with
  | nil => exact ⟨none, rfl⟩
  | cons a l ih =>
    obtain ⟨r, hr⟩ := h a List.mem_cons_self
    rw [List.findSomeM?, ExceptT.run_bind, hr]
    cases r with
    | none => exact ih fun b hb ↦ h b (List.mem_cons_of_mem a hb)
    | some b => exact ⟨some b, rfl⟩

/-! ### Images -/

/-- A leaf without offset has an image under shallow bindings. -/
theorem exists_apply_leaf (hs : s.Shallow .zero) (al : s.Aliasing) (ht : t.isLeaf .zero = true) :
    ∃ u, s.apply t = .ok u := by
  rw [apply]
  cases t with
  | app => cases ht
  | const v => exact ⟨.const v, by rw [applyAvoiding_eq_bindM]; rfl⟩
  | var x k =>
    obtain rfl := eq_zero_of_allows ht
    obtain ⟨e, he⟩ := exists_followFrom hs [] x
    cases e with
    | free y j => exact ⟨_, applyAvoiding_var_eq_ok.2 (.inl ⟨y, j, he, rfl⟩)⟩
    | bound y u j =>
      obtain ⟨-, hj, hget, huv⟩ := al.follow_bound he
      have hzero : j = 0 := by
        refine eq_zero_of_allows ?_
        rw [hj, Int64.toInt_zero, Int.zero_add]
        exact hs.allows_height al x
      -- the value is a constant, and it is not moved
      refine ⟨u, applyAvoiding_var_eq_ok.2 (.inr ⟨y, u, j, he, .inr ⟨List.not_mem_nil, u, ?_, ?_⟩⟩)⟩
      · cases u with
        | var => cases huv
        | app => cases hs y _ hget
        | const v => rw [applyAvoiding_eq_bindM]; rfl
      · rw [hzero, Term.shifted_zero]

/-- A flat literal without offsets has an image, argument by argument. -/
theorem exists_apply_of_isFlat (hs : s.Shallow .zero) (al : s.Aliasing)
    (ht : t.isFlat .zero = true) : ∃ u, s.apply t = .ok u := by
  cases t with
  | const | var => cases ht
  | app g ts =>
    have hargs : ∀ t ∈ ts, ∃ u, t.bindM (fun x k ↦ s.applyAvoiding [] (.var x k)) = .ok u := by
      intro t ht'
      rw [← applyAvoiding_eq_bindM]
      exact exists_apply_leaf hs al (Term.isFlat_app_iff.1 ht t ht')
    obtain ⟨us, hus⟩ := exists_mapM_eq_ok hargs
    refine ⟨.app g us, ?_⟩
    rw [apply, applyAvoiding_eq_bindM]
    exact Term.bindM_app_eq_ok.2 ⟨us, hus, rfl⟩

namespace Clause

theorem exists_apply (hs : s.Shallow .zero) (al : s.Aliasing) (hc : c.isFlat .zero = true) :
    ∃ d, c.apply s = .ok d := by
  obtain ⟨hpos, hneg⟩ := isFlat_iff.1 hc
  obtain ⟨pos, hpos⟩ := exists_mapM_eq_ok fun t ht ↦ exists_apply_of_isFlat hs al (hpos t ht)
  obtain ⟨neg, hneg⟩ := exists_mapM_eq_ok fun t ht ↦ exists_apply_of_isFlat hs al (hneg t ht)
  exact ⟨_, apply_eq_ok.2 ⟨pos, neg, hpos, hneg, rfl⟩⟩

/-! ### Factoring and tautologies -/

theorem exists_merge? (hc : c.isFlat .zero = true) {e : Term × Term} (he : e ∈ c.pairs) (n : Nat) :
    ∃ r, (c.merge? (n + 2) e).run = some (.ok r) := by
  have heflat := isFlat_of_mem_pairs hc he
  obtain ⟨r, hr⟩ := exists_mgu?_run heflat.1 heflat.2 n
  rw [merge?_run, hr]
  cases r with
  | none => exact ⟨none, rfl⟩
  | some s =>
    obtain ⟨al⟩ := nonempty_aliasing_of_mgu? hr
    obtain ⟨d, hd⟩ := exists_apply (shallow_of_mgu? heflat.1 heflat.2 hr) al hc
    rw [Option.bind_some]
    dsimp only
    rw [hd]
    exact ⟨_, rfl⟩

/-- A flat clause without offsets is factored. The recursion is on the size, as in the definition.
-/
theorem exists_factor {c : Clause} (hc : c.isFlat .zero = true) (n : Nat) :
    ∃ d, (c.factor (n + 2)).run = some (.ok d) := by
  obtain ⟨r, hr⟩ : ∃ r, (c.mergeFirst? (n + 2)).run = some (.ok r) :=
    exists_findSomeM? fun e he ↦ exists_merge? hc he n
  rw [factor, ExceptT.run_bind, hr]
  cases r with
  | none => exact ⟨c, rfl⟩
  | some d =>
    obtain ⟨pre, e, post, hpairs, -, he⟩ := findSomeM?_eq_ok_some hr
    obtain ⟨s, hs, hd⟩ := merge?_eq_ok_some he
    obtain ⟨al⟩ := nonempty_aliasing_of_mgu? hs
    have hmem : e ∈ pre ++ e :: post := List.mem_append_right _ List.mem_cons_self
    have heflat := isFlat_of_mem_pairs (c := c) hc (hpairs ▸ hmem)
    exact exists_factor (isFlat_apply (shallow_of_mgu? heflat.1 heflat.2 hs) al hc hd) n
termination_by c.size
decreasing_by exact d.2

theorem exists_isTautological (hc : c.isFlat .zero = true) (n : Nat) :
    ∃ b, c.isTautological (n + 2) = some b := by
  obtain ⟨hpos, hneg⟩ := isFlat_iff.1 hc
  have hanyM : ∀ {f : Term → Budgeted Bool} {l : List Term}, (∀ a ∈ l, ∃ b, f a = some b) →
      ∃ b, l.anyM f = some b := by
    intro f l h
    obtain ⟨b, hb, -⟩ := anyM_eq_some_of_forall (P := fun a ↦ f a = some true) fun a ha ↦ by
      obtain ⟨b, hb⟩ := h a ha
      exact ⟨b, hb, by rw [hb, Option.some.injEq]⟩
    exact ⟨b, hb⟩
  refine hanyM fun p hp ↦ hanyM fun q hq ↦ ?_
  obtain ⟨r, hr⟩ := exists_mgu?_run (hpos p hp) (hneg q hq) n
  exact ⟨r.isSome, by rw [unifiable, hr]; rfl⟩

end Clause

/-! ### Inferences -/

/-- Each clash of flat clauses is resolved. -/
theorem Clash.exists_infer? {k : Clash} (hl : k.left.isFlat .zero = true)
    (hr : k.right.isFlat .zero = true) (hp : k.positive ∈ k.left.pos) (hn : k.negated ∈ k.right.neg)
    (n : Nat) : ∃ i?, (k.infer? (n + 2)).run = some (.ok i?) := by
  have hpflat := (Clause.isFlat_iff.1 hl).1 _ hp
  have hnflat := (Clause.isFlat_iff.1 hr).2 _ hn
  obtain ⟨r, hs⟩ := exists_mgu?_run hpflat hnflat n
  rw [infer?_run, hs, Option.bind_some]
  cases r with
  | none => exact ⟨none, rfl⟩
  | some s =>
    obtain ⟨al⟩ := nonempty_aliasing_of_mgu? hs
    have hshallow := shallow_of_mgu? hpflat hnflat hs
    obtain ⟨c, hc⟩ := Clause.exists_apply hshallow al (isFlat_remainder hl hr)
    have hcflat := Clause.isFlat_apply hshallow al (isFlat_remainder hl hr) hc
    obtain ⟨d, hd⟩ := Clause.exists_factor hcflat n
    have hdflat := (Clause.factored_of_factor hd).isFlat hcflat
    obtain ⟨b, hb⟩ := Clause.exists_isTautological (Clause.isFlat_rename _ hdflat) n
    dsimp only
    rw [hc]
    dsimp only
    rw [hd, Option.bind_some]
    dsimp only
    rw [Clause.canonicalize, hb]
    exact ⟨_, rfl⟩

/-- **Resolving flat clauses without offsets completes**, within a budget of two. -/
theorem exists_resolve_of_isFlat (hc : c.isFlat .zero = true) (hd : d.isFlat .zero = true)
    (n : Nat) : ∃ r, resolve (n + 2) c d = some r ∧ r.fault = none := by
  refine @exists_inferFrom _ (clashes c d) fun k hk ↦ ?_
  obtain ⟨hl, hr, hp, hn⟩ := sides_of_mem_clashes (P := fun c ↦ c.isFlat .zero = true) hk
    (fun f _ ↦ Clause.isFlat_rename f) hc hd
  exact k.exists_infer? hl hr hp hn n

end OffsetLogic
