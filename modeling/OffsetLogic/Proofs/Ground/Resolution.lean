import OffsetLogic.Proofs.Resolution.Inference
import OffsetLogic.Proofs.Semantics.Assignment
import OffsetLogic.Proofs.Substitution.Applied
import OffsetLogic.Proofs.Unification.Success

/-!
# Resolution of ground clauses

On ground clauses the machinery of unification does nothing: ground terms unify exactly when they
are **equal**, the unifier binds nothing, no two literals can be merged, and there are no variables
to rename. What is left is propositional resolution: the conclusions from two clauses are their
remainders upon shared atoms, and those that contain an atom with both signs are the ones that are
marked as tautological (`resolve_ground`).

All of this needs a budget beyond the size of the atoms. So the clauses are taken over a list of
atoms, `Clause.Over`, which are ground and of bounded size.

**The list of atoms bounds the budget once and for all.** Resolving two clauses over a list gives
clauses over the list again, so the budget that is enough for the given clauses is enough for every
clause of a run, and no bound has to grow with the round. A bound on the literals of the two parents
would do for one step only.

The statements are about results and not about the unifiers by which they come about:
`Over.factor_run` says that factoring returns the clause, `Over.isTautological` that the test
answers and when it answers yes, `Clash.infer?_ground` what a clash gives. Only `unify_ground` looks
into unification. There the induction is on the first term, and the arguments of two applications
are unified with no bindings made on the way, since a pair that is equal adds none and a pair that
is not ends it.
-/

namespace OffsetLogic

open Substitution

variable {n : Nat} {a b t : Term} {c d : Clause} {atoms : List Term} {s : Substitution}

namespace Term

/-- An application is ground when its arguments are. -/
theorem isGround_app_iff {g : String} {ts : List Term} :
    (app g ts).isGround = true ↔ ∀ t ∈ ts, t.isGround = true := by
  simp [isGround, occurrences, occurrencesArgs_eq_flatMap, List.isEmpty_iff]

theorem rename_eq_self (f : String → String) (ht : t.isGround = true) : t.rename f = t := by
  induction t with
  | const v => rfl
  | var x k => cases ht
  | app g ts ih =>
    rw [rename, renameArgs_eq_map, List.map_congr_left fun t ht' ↦
      ih t ht' (isGround_app_iff.1 ht t ht'), List.map_id']

end Term

/-! ### Unification -/

/-- Where pairs of terms unify exactly when they are equal, argument lists do, and nothing is bound
on the way. -/
theorem foldlM_unify_ground {ts us : List Term} (hlen : ts.length = us.length)
    (h : ∀ t ∈ ts, ∀ u ∈ us, (unify n t u s).run = some (if t = u then some s else none)) :
    ((ts.zip us).foldlM (fun s e ↦ unify n e.1 e.2 s) s).run =
      some (if ts = us then some s else none) := by
  induction ts generalizing us with
  | nil =>
    obtain rfl := List.length_eq_zero_iff.1 hlen.symm
    rfl
  | cons t ts ih =>
    cases us with
    | nil => cases hlen
    | cons u us =>
      have ih := ih (Nat.succ.inj hlen) fun t' ht' u' hu' ↦
        h t' (List.mem_cons_of_mem _ ht') u' (List.mem_cons_of_mem _ hu')
      rw [List.zip_cons_cons, List.foldlM_cons, OptionT.run_bind,
        h t List.mem_cons_self u List.mem_cons_self]
      by_cases htu : t = u
      · simpa [htu, Option.elimM] using ih
      · simp [htu, Option.elimM]

/-- Ground terms unify when they are equal, and nothing is bound. -/
theorem unify_ground (ha : a.isGround = true) (hb : b.isGround = true)
    (hn : min (sizeOf a) (sizeOf b) < n) (s : Substitution) :
    (unify n a b s).run = some (if a = b then some s else none) := by
  obtain ⟨n, rfl⟩ : ∃ m, n = m + 1 := ⟨n - 1, by omega⟩
  induction a generalizing b n with
  | var x k => cases ha
  | const u =>
    cases b with
    | var => cases hb
    | const v =>
      rw [unify_const_const]
      by_cases huv : u = v <;> simp [huv]
    | app => simp [unify_const_app]
  | app g ts ih =>
    cases b with
    | var => cases hb
    | const v => simp [unify_app_const]
    | app h us =>
      rw [unify_app_app]
      split
      · rename_i hgh
        simp only [Term.app.sizeOf_spec] at hn
        obtain ⟨n, rfl⟩ : ∃ m, n = m + 1 := ⟨n - 1, by omega⟩
        rw [foldlM_unify_ground hgh.2, hgh.1]
        · simp
        · intro t ht u hu
          have := List.sizeOf_lt_of_mem ht
          have := List.sizeOf_lt_of_mem hu
          exact ih t ht (Term.isGround_app_iff.1 ha t ht) (Term.isGround_app_iff.1 hb u hu) _
            (by omega)
      · rename_i hgh
        have hne : Term.app g ts ≠ .app h us := by
          intro heq
          cases heq
          exact hgh ⟨rfl, rfl⟩
        rw [if_neg hne]
        rfl

/-- The same without bindings to begin with, on a budget beyond the size of the first term. -/
theorem mgu?_ground (ha : a.isGround = true) (hb : b.isGround = true) (hn : sizeOf a < n) :
    mgu? n a b = some (if a = b then some ∅ else none) :=
  unify_ground ha hb (Nat.lt_of_le_of_lt (Nat.min_le_left _ _) hn) ∅

/-! ### Variables without bindings -/

/-- Without bindings, every term stays as it is. -/
theorem apply_empty (t : Term) : (∅ : Substitution).apply t = .ok t := by
  rw [apply, applyAvoiding_eq_bindM]
  induction t with
  | const v => rfl
  | var x k => exact applyAvoiding_var_eq_ok.2 (.inl ⟨x, k, follow_of_get?_eq_none rfl, rfl⟩)
  | app g ts ih =>
    refine Term.bindM_app_eq_ok.2 ⟨ts, ?_, rfl⟩
    induction ts with
    | nil => rfl
    | cons t ts iht =>
      exact mapM_cons_eq_ok.2 ⟨t, ts, ih t List.mem_cons_self,
        iht fun t ht ↦ ih t (List.mem_cons_of_mem _ ht), rfl⟩

theorem Clause.apply_empty (c : Clause) : c.apply ∅ = .ok c := by
  have hmapM : ∀ l : List Term, l.mapM (∅ : Substitution).apply = .ok l := by
    intro l
    rw [funext OffsetLogic.apply_empty]
    exact List.mapM_pure.trans (congrArg _ (List.map_id' l))
  refine apply_eq_ok.2 ⟨_, _, hmapM _, hmapM _, ?_⟩
  rw [ofLists, SortedSet.ofList_toList, SortedSet.ofList_toList]

/-! ### Factoring, renaming and tautologies -/

/-- A test of the members of a list that answers for each of them answers for the list. -/
theorem anyM_eq_some_of_forall {α : Type} {f : α → Budgeted Bool} {P : α → Prop} {l : List α}
    (h : ∀ a ∈ l, ∃ b, f a = some b ∧ (b = true ↔ P a)) :
    ∃ b, l.anyM f = some b ∧ (b = true ↔ ∃ a ∈ l, P a) := by
  induction l with
  | nil => exact ⟨false, rfl, by simp⟩
  | cons a l ih =>
    obtain ⟨b, hb, hP⟩ := h a List.mem_cons_self
    obtain ⟨b', hb', hP'⟩ := ih fun a ha ↦ h a (List.mem_cons_of_mem _ ha)
    rw [List.anyM, hb]
    cases b with
    | true => exact ⟨true, rfl, by simp [hP.1 rfl]⟩
    | false => exact ⟨b', hb', by simpa [← hP] using hP'⟩

namespace Clause

theorem isGround_iff :
    c.isGround = true ↔ ∀ t, t ∈ c.pos ∨ t ∈ c.neg → t.isGround = true := by
  simp only [isGround, atoms, List.all_eq_true, List.mem_append, SortedSet.mem_toList]

theorem rename_eq_self (f : String → String) (hc : c.isGround = true) : c.rename f = c := by
  have hmap : ∀ l : SortedSet Term, (∀ t, t ∈ l → t.isGround = true) →
      l.map (Term.rename f) = l := by
    intro l hl
    ext t
    rw [SortedSet.mem_map]
    constructor
    · rintro ⟨u, hu, rfl⟩
      rwa [Term.rename_eq_self f (hl u hu)]
    · exact fun ht ↦ ⟨t, ht, Term.rename_eq_self f (hl t ht)⟩
  rw [rename, hmap _ fun t ht ↦ isGround_iff.1 hc t (.inl ht),
    hmap _ fun t ht ↦ isGround_iff.1 hc t (.inr ht)]

theorem isGround_rename (f : String → String) (hc : c.isGround = true) :
    (c.rename f).isGround = true := by
  rwa [rename_eq_self f hc]

section

variable (hatoms : ∀ t ∈ atoms, t.isGround = true ∧ sizeOf t < n)

include hatoms

/-- No merging makes a ground clause smaller, so factoring leaves it as it is. -/
theorem Over.factor_run (hc : c.Over atoms) : (c.factor n).run = some (.ok c) := by
  have hmerge : ∀ e ∈ c.pairs, (c.merge? n e).run = some (.ok none) := by
    intro e he
    have hmem : e.1 ∈ atoms ∧ e.2 ∈ atoms := by
      obtain ⟨h₁, h₂⟩ | ⟨h₁, h₂⟩ := mem_of_mem_pairs he
      · exact ⟨hc _ (.inl h₁), hc _ (.inl h₂)⟩
      · exact ⟨hc _ (.inr h₁), hc _ (.inr h₂)⟩
    obtain ⟨h₁, hn⟩ := hatoms _ hmem.1
    rw [merge?_run, mgu?_ground h₁ (hatoms _ hmem.2).1 hn, if_neg (ne_of_mem_pairs he)]
    rfl
  have hfirst : (c.mergeFirst? n).run = some (.ok none) := findSomeM?_eq_ok_none_iff.2 hmerge
  rw [factor, ExceptT.run_bind, hfirst]
  rfl

/-- Positive and negated literals of a ground clause unify when an atom has both signs. -/
theorem Over.isTautological (hc : c.Over atoms) :
    ∃ b, c.isTautological n = some b ∧ (b = true ↔ c.Clashing) := by
  refine anyM_eq_some_of_forall (P := fun p ↦ p ∈ c.neg) fun p hp ↦ ?_
  obtain ⟨b, hb, hiff⟩ := anyM_eq_some_of_forall (f := fun q ↦ unifiable n p q)
    (P := fun q ↦ p = q) (l := c.neg.toList) fun q hq ↦ by
      obtain ⟨hp, hn⟩ := hatoms p (hc p (.inl hp))
      rw [unifiable, mgu?_ground hp (hatoms q (hc q (.inr hq))).1 hn]
      exact ⟨_, rfl, by split <;> simp_all⟩
  exact ⟨b, hb, by simpa using hiff⟩

/-- Ground clauses have no variables in common. -/
theorem Over.standardizeApart (hc : c.Over atoms) : c.standardizeApart d = (c, d) := by
  refine if_pos (SortedSet.isDisjoint_iff.2 fun x hx ↦ ?_)
  obtain ⟨t, ht, hxt⟩ := mem_variableNames.1 hx
  have hground := (hatoms t (hc t (List.mem_append.1 ht))).1
  rw [Term.isGround, List.isEmpty_iff] at hground
  rw [hground] at hxt
  cases hxt

end

end Clause

/-! ### Resolvents -/

/-- The clause `e` is what is left of two clauses after an atom of both was resolved upon. -/
def Clause.IsRemainder (c d e : Clause) : Prop :=
  (∃ p, p ∈ c.pos ∧ p ∈ d.neg ∧ e = Clash.remainder ⟨c, d, p, p⟩) ∨
    ∃ p, p ∈ d.pos ∧ p ∈ c.neg ∧ e = Clash.remainder ⟨d, c, p, p⟩

/-- What is left of two clauses has no new atoms. -/
theorem Clause.IsRemainder.over {e : Clause} (h : c.IsRemainder d e) (hc : c.Over atoms)
    (hd : d.Over atoms) : e.Over atoms := by
  obtain ⟨p, -, -, rfl⟩ | ⟨p, -, -, rfl⟩ := h
  · exact Clash.over_remainder hc hd
  · exact Clash.over_remainder hd hc

/-- What is left of two clauses holds where both hold, since the atom resolved upon cannot be both
true and false. -/
theorem Clause.IsRemainder.holdsIn {I : Term → Prop} {e : Clause} (h : c.IsRemainder d e)
    (hc : c.HoldsIn I) (hd : d.HoldsIn I) : e.HoldsIn I := by
  obtain ⟨p, -, -, rfl⟩ | ⟨p, -, -, rfl⟩ := h
  · exact Clash.holdsIn_remainder hc hd id
  · exact Clash.holdsIn_remainder hd hc id

section

variable (hatoms : ∀ t ∈ atoms, t.isGround = true ∧ sizeOf t < n)

include hatoms

/-- A clash of equal atoms gives the remainder; other clashes give nothing. -/
theorem Clash.infer?_ground {k : Clash} (hl : k.left.Over atoms) (hr : k.right.Over atoms)
    (hp : k.positive ∈ k.left.pos) (hq : k.negated ∈ k.right.neg) :
    ∃ i?, (k.infer? n).run = some (.ok i?) ∧ ((∃ i, i? = some i) ↔ k.positive = k.negated) ∧
      ∀ i, i? = some i → i.resolvent = k.remainder ∧
        (i.isTautology = true ↔ k.remainder.Clashing) := by
  obtain ⟨hpg, hpn⟩ := hatoms _ (hl _ (.inl hp))
  rw [infer?_run, mgu?_ground hpg (hatoms _ (hr _ (.inr hq))).1 hpn]
  by_cases heq : k.positive = k.negated
  · have hover : k.remainder.Over atoms := over_remainder hl hr
    obtain ⟨b, hb, hiff⟩ := hover.isTautological hatoms
    have hcan : k.remainder.canonicalize = k.remainder :=
      Clause.rename_eq_self _ (Clause.isGround_iff.2 fun t ht ↦ (hatoms t (hover t ht)).1)
    rw [if_pos heq, Option.bind_some]
    dsimp only
    rw [Clause.apply_empty]
    dsimp only
    rw [hover.factor_run hatoms, Option.bind_some]
    dsimp only
    rw [hcan, hb]
    refine ⟨_, rfl, by simp [heq], ?_⟩
    rintro i hi
    cases hi
    exact ⟨rfl, hiff⟩
  · rw [if_neg heq]
    exact ⟨none, rfl, by simp [heq], fun i hi ↦ nomatch hi⟩

/-- **Resolution of ground clauses is propositional.** -/
theorem resolve_ground (hc : c.Over atoms) (hd : d.Over atoms) :
    ∃ r, resolve n c d = some r ∧ r.fault = none ∧
      (∀ i ∈ r.inferences, c.IsRemainder d i.resolvent ∧
        (i.isTautology = true ↔ i.resolvent.Clashing)) ∧
      ∀ e, c.IsRemainder d e → ∃ i ∈ r.inferences, i.resolvent = e := by
  have hclashes : ∀ k, k ∈ clashes c d ↔
      (∃ p ∈ c.pos, ∃ q ∈ d.neg, k = ⟨c, d, p, q⟩) ∨
        ∃ p ∈ d.pos, ∃ q ∈ c.neg, k = ⟨d, c, p, q⟩ := by
    intro k
    rw [clashes, hc.standardizeApart hatoms, List.mem_append, mem_between, mem_between]
  -- each clash gives an inference when its atoms are equal, and none otherwise
  have hinfer : ∀ k ∈ clashes c d, ∃ i?, (k.infer? n).run = some (.ok i?) ∧
      ((∃ i, i? = some i) ↔ k.positive = k.negated) ∧
      ∀ i, i? = some i → i.resolvent = k.remainder ∧
        (i.isTautology = true ↔ k.remainder.Clashing) := by
    intro k hk
    rcases (hclashes k).1 hk with ⟨p, hp, q, hq, rfl⟩ | ⟨p, hp, q, hq, rfl⟩
    · exact Clash.infer?_ground hatoms hc hd hp hq
    · exact Clash.infer?_ground hatoms hd hc hp hq
  have hall : ∀ k ∈ clashes c d, ∃ i?, (k.infer? n).run = some (.ok i?) := fun k hk ↦
    (hinfer k hk).imp fun _ h ↦ h.1
  obtain ⟨r, hr, hf⟩ := exists_inferFrom hall
  refine ⟨r, hr, hf, fun i hi ↦ ?_, fun e he ↦ ?_⟩
  · obtain ⟨k, hk, hki⟩ := exists_of_mem_inferFrom hr hi
    obtain ⟨i?, hi?, hsome, hspec⟩ := hinfer k hk
    rw [hki] at hi?
    cases hi?
    obtain ⟨hrem, htaut⟩ := hspec i rfl
    have heq : k.positive = k.negated := hsome.1 ⟨i, rfl⟩
    refine ⟨?_, hrem ▸ htaut⟩
    rw [hrem]
    rcases (hclashes k).1 hk with ⟨p, hp, q, hq, rfl⟩ | ⟨p, hp, q, hq, rfl⟩
    · obtain rfl : p = q := heq
      exact .inl ⟨p, hp, hq, rfl⟩
    · obtain rfl : p = q := heq
      exact .inr ⟨p, hp, hq, rfl⟩
  · obtain ⟨k, hk, heq, rfl⟩ : ∃ k ∈ clashes c d, k.positive = k.negated ∧ e = k.remainder := by
      rcases he with ⟨p, hp, hq, rfl⟩ | ⟨p, hp, hq, rfl⟩
      · exact ⟨_, (hclashes _).2 (.inl ⟨p, hp, p, hq, rfl⟩), rfl, rfl⟩
      · exact ⟨_, (hclashes _).2 (.inr ⟨p, hp, p, hq, rfl⟩), rfl, rfl⟩
    obtain ⟨i?, hi?, hsome, hspec⟩ := hinfer k hk
    obtain ⟨i, rfl⟩ := hsome.2 heq
    obtain ⟨i?', hi?', hmem⟩ := infer?_of_mem_inferFrom hr hf hk
    rw [hi?] at hi?'
    cases hi?'
    exact ⟨i, hmem i rfl, (hspec i rfl).1⟩

end

end OffsetLogic
