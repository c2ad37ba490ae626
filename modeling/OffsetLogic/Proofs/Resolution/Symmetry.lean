import OffsetLogic.Proofs.Renaming.Merging

/-!
# Resolving in both orders

Resolving `c` with `d` draws the inferences that resolving `d` with `c` draws, in another order. If
the clauses have no variable in common, that is all. Otherwise they are marked, and the marks are
**exchanged**: what is `x_l` in one call is `x_r` in the other. Names decide which literals are
merged first and which name of an alias class stays, so the resolvents can differ by more than names
(`not_forall_mem_resolvents_comm`).

They are the same when neither can happen: when no variable has an offset, and the conclusions have
one factored form, whichever literals are merged first. Each clash then corresponds to the one with
exchanged marks (`exists_exchange`), and the inferences from the two agree (`Clash.agree_rename`).

## Where each condition is used

* **No offsets**, so that the unifier of renamed literals makes of a clause what the unifier of the
  literals makes of it, up to names. With an offset the name that stays for an alias class decides
  which of the others carry offsets, and the conclusions are not even variants; the example at the
  end shows a conclusion `r(x)` in one order and `r(x + 1)` in the other.
* **One factored form**, so that merging in the order of the new names ends in a variant of what
  merging in the order of the old names ends in. Variants that are factored have one canonical form,
  so the resolvents are then equal, and not only variants.

Both orders have to complete, and the two runs may have different budgets. Agreement is stated for
answers without errors only (`Clash.Agree`), since a clash that has no answer within a budget says
nothing about the other one; an inference without a partner would be one for which the other clash
has the answer that its literals do not unify, and that is excluded.

The resolvents are compared as sets, because the clashes come in another order.
-/

namespace OffsetLogic

open Relation Substitution

variable {m n : Nat} {f : String → String} {S : Set String} {c d e : Clause} {k k' : Clash}
variable {l l' : List Clause}

/-! ### Clashes with other names -/

namespace Clash

instance : DecidableEq Clash := fun k k' ↦ decidable_of_iff
  (k.left = k'.left ∧ k.right = k'.right ∧ k.positive = k'.positive ∧ k.negated = k'.negated)
  (by cases k; cases k'; simp)

/-- The clash with `f` applied to the names of both clauses. -/
def rename (f : String → String) (k : Clash) : Clash :=
  ⟨k.left.rename f, k.right.rename f, k.positive.rename f, k.negated.rename f⟩

/-- The clause follows from the clash, before it is factored. -/
def Concludes (k : Clash) (c : Clause) : Prop :=
  ∃ n s, mgu? n k.positive k.negated = some (some s) ∧ k.remainder.apply s = .ok c

/-- The clash is between literals of its clauses, whose variables are names of `S` without
offsets. -/
structure PlainOver (S : Set String) (k : Clash) : Prop where
  left : k.left.PlainOver S
  right : k.right.PlainOver S
  positive : k.positive ∈ k.left.pos
  negated : k.negated ∈ k.right.neg

/-- Whatever the budgets, if the two clashes are resolved without error, both give the same
resolvent and the same mark, or neither gives one. -/
def Agree (m n : Nat) (k k' : Clash) : Prop :=
  ∀ i? i?', (k.infer? m).run = some (.ok i?) → (k'.infer? n).run = some (.ok i?') →
    Option.Rel (fun i i' ↦ i.resolvent = i'.resolvent ∧ i.isTautology = i'.isTautology) i? i?'

theorem Agree.symm (h : Agree m n k k') : Agree n m k' k := by
  intro i?' i? hi' hi
  cases h i? i?' hi hi' with
  | none => exact .none
  | some h => exact .some ⟨h.1.symm, h.2.symm⟩

theorem Agree.refl (m n : Nat) (k : Clash) : Agree m n k k := by
  intro i? i?' hi hi'
  obtain rfl := Except.ok.inj (Budgeted.Le.unique (fun hmn ↦ infer?_le hmn k) hi hi')
  cases i?' with
  | none => exact .none
  | some i => exact .some ⟨rfl, rfl⟩

/-- A clash gives nothing only when its literals do not unify. -/
theorem mgu?_of_infer?_eq_ok_none (h : (k.infer? n).run = some (.ok none)) :
    mgu? n k.positive k.negated = some none := by
  rw [infer?_run] at h
  obtain ⟨s?, hs, h⟩ := Option.bind_eq_some_iff.1 h
  cases s? with
  | none => exact hs
  | some s =>
    dsimp only at h
    split at h
    · cases h
    · obtain ⟨r, -, h⟩ := Option.bind_eq_some_iff.1 h
      obtain err | d := r
      · cases h
      · obtain ⟨b, -, h⟩ := Option.map_eq_some_iff.1 h
        cases h

theorem PlainOver.remainder (h : k.PlainOver S) : k.remainder.PlainOver S := by
  rintro t (ht | ht)
  · rcases SortedSet.mem_union.1 ht with ht | ht
    · exact h.left t (.inl (SortedSet.mem_erase.1 ht).1)
    · exact h.right t (.inl ht)
  · rcases SortedSet.mem_union.1 ht with ht | ht
    · exact h.left t (.inr ht)
    · exact h.right t (.inr (SortedSet.mem_erase.1 ht).1)

/-- Where a renaming keeps names apart, removing a literal and renaming can be exchanged. -/
theorem map_erase_rename {l : SortedSet Term} {p : Term} (hf : Set.InjOn f S)
    (hl : ∀ t, t ∈ l → t.PlainOver S) (hp : p ∈ l) :
    (l.map (Term.rename f)).erase (p.rename f) = (l.erase p).map (Term.rename f) := by
  ext t
  simp only [SortedSet.mem_erase, SortedSet.mem_map]
  constructor
  · rintro ⟨⟨u, hu, rfl⟩, hne⟩
    exact ⟨u, ⟨hu, fun h ↦ hne (h ▸ rfl)⟩, rfl⟩
  · rintro ⟨u, ⟨hu, hne⟩, rfl⟩
    exact ⟨⟨u, hu, rfl⟩, fun h ↦ hne ((hl u hu).eq_of_rename_eq (hl p hp) hf h)⟩

/-- What is left of a renamed clash is the renamed rest. -/
theorem PlainOver.remainder_rename (h : k.PlainOver S) (hf : Set.InjOn f S) :
    (k.rename f).remainder = k.remainder.rename f := by
  rw [Clash.remainder, Clash.remainder, Clause.rename, SortedSet.map_union, SortedSet.map_union,
    ← map_erase_rename hf (fun t ht ↦ h.left t (.inl ht)) h.positive,
    ← map_erase_rename hf (fun t ht ↦ h.right t (.inr ht)) h.negated]
  rfl

/-- The inference from a clash does not depend on its names. -/
theorem agree_rename (h : k.PlainOver S) (hf : Set.InjOn f S)
    (hunique : ∀ c, k.Concludes c → c.FactorsUniquely) (m n : Nat) : Agree m n k (k.rename f) := by
  -- the unifiers, on one budget for both
  have hstep := (IsRenamed.empty hf).unify (max m n) (h.left _ (.inl h.positive))
    (h.right _ (.inr h.negated))
  have hrel : ∀ {r r'}, mgu? m k.positive k.negated = some r →
      mgu? n (k.rename f).positive (k.rename f).negated = some r' →
      Option.Rel (IsRenamed S f) r r' := fun hr hr' ↦
    hstep.rel (mgu?_le (Nat.le_max_left m n) _ _ _ hr) (mgu?_le (Nat.le_max_right m n) _ _ _ hr')
  intro i? i?' hi hi'
  cases i? with
  | none =>
    have hs := mgu?_of_infer?_eq_ok_none hi
    cases i?' with
    | none => exact .none
    | some i' =>
      obtain ⟨s', -, -, hs', -⟩ := infer?_eq_ok_some hi'
      cases hrel hs hs'
  | some i =>
    obtain ⟨s, e, d, hs, he, hd, hi, htaut⟩ := infer?_eq_ok_some hi
    cases i?' with
    | none => cases hrel hs (mgu?_of_infer?_eq_ok_none hi')
    | some i' =>
      obtain ⟨s', e', d', hs', he', hd', hi', htaut'⟩ := infer?_eq_ok_some hi'
      cases hrel hs hs' with
      | some hrenamed =>
        obtain ⟨e₁, e₁', he₁, he₁', hfree, hvariant⟩ := hrenamed.exists_variants hf h.remainder
        rw [he] at he₁
        rw [← h.remainder_rename hf, he'] at he₁'
        obtain rfl := Except.ok.inj he₁
        obtain rfl := Except.ok.inj he₁'
        have hcan := Clause.canonicalize_eq_of_factor (hunique e ⟨m, s, hs, he⟩) hfree hvariant
          hd hd'
        rw [← hcan] at htaut' hi'
        refine .some ⟨hi.trans hi'.symm, ?_⟩
        exact Budgeted.Le.unique (fun hmn ↦ Clause.isTautological_le hmn _) htaut' htaut

end Clash

/-- Clashes that agree one by one give the same resolvents. -/
theorem mem_resolvents_of_agree {ks ks' : List Clash} {r r' : Resolution}
    (hr : inferFrom m ks = some r) (hr' : inferFrom n ks' = some r') (hf' : r'.fault = none)
    (hagree : ∀ k ∈ ks, ∃ k' ∈ ks', Clash.Agree m n k k') (he : e ∈ r.resolvents) :
    e ∈ r'.resolvents := by
  obtain ⟨i, hi, htaut, rfl⟩ := mem_resolvents.1 he
  obtain ⟨k, hk, hinfer⟩ := exists_of_mem_inferFrom hr hi
  obtain ⟨k', hk', h⟩ := hagree k hk
  obtain ⟨i?', hinfer', hmem⟩ := infer?_of_mem_inferFrom hr' hf' hk'
  cases h _ _ hinfer hinfer' with
  | @some _ i' hii =>
    exact mem_resolvents.2 ⟨i', hmem i' rfl, hii.2 ▸ htaut, hii.1.symm⟩

/-! ### Exchanged marks -/

/-- The marks of standardization can be exchanged by one injective renaming. -/
theorem exists_exchange : ∃ f : String → String,
    Set.InjOn f (Set.range (Term.suffixed "l") ∪ Set.range (Term.suffixed "r")) ∧
    (∀ x, f (Term.suffixed "l" x) = Term.suffixed "r" x) ∧
    ∀ x, f (Term.suffixed "r" x) = Term.suffixed "l" x := by
  classical
  have hleft := Function.leftInverse_invFun (suffixed_injective "l")
  have hright := Function.leftInverse_invFun (suffixed_injective "r")
  let f (y : String) : String :=
    if y ∈ Set.range (Term.suffixed "l") then
      Term.suffixed "r" (Function.invFun (Term.suffixed "l") y)
    else Term.suffixed "l" (Function.invFun (Term.suffixed "r") y)
  have hl : ∀ x, f (Term.suffixed "l" x) = Term.suffixed "r" x := fun x ↦ by
    simp only [f]
    rw [if_pos ⟨x, rfl⟩, hleft x]
  have hr : ∀ x, f (Term.suffixed "r" x) = Term.suffixed "l" x := fun x ↦ by
    simp only [f]
    rw [if_neg fun ⟨y, hy⟩ ↦ suffixed_ne y x hy, hright x]
  refine ⟨f, ?_, hl, hr⟩
  rintro _ (⟨x, rfl⟩ | ⟨x, rfl⟩) _ (⟨y, rfl⟩ | ⟨y, rfl⟩) hxy
  · rw [hl, hl] at hxy
    rw [suffixed_injective "r" hxy]
  · rw [hl, hr] at hxy
    exact absurd hxy.symm (suffixed_ne y x)
  · rw [hr, hl] at hxy
    exact absurd hxy (suffixed_ne x y)
  · rw [hr, hr] at hxy
    rw [suffixed_injective "l" hxy]

/-- Clauses that share a variable are resolved with the marks `l` and `r`. -/
theorem standardizeApart_of_shared (h : c.variableNames.isDisjoint d.variableNames = false) :
    c.standardizeApart d = (c.renameSuffix "l", d.renameSuffix "r") := by
  rw [Clause.standardizeApart, h]
  rfl

theorem isDisjoint_comm (c d : Clause) :
    d.variableNames.isDisjoint c.variableNames = c.variableNames.isDisjoint d.variableNames := by
  rw [Bool.eq_iff_iff, SortedSet.isDisjoint_iff, SortedSet.isDisjoint_iff]
  exact ⟨fun h x hx hx' ↦ h x hx' hx, fun h x hx hx' ↦ h x hx' hx⟩

theorem mem_clashes_iff : k ∈ clashes c d ↔
    k ∈ Clash.between (c.standardizeApart d).1 (c.standardizeApart d).2 ∨
      k ∈ Clash.between (c.standardizeApart d).2 (c.standardizeApart d).1 :=
  List.mem_append

/-- Without a variable in common, the order of the clauses does not change their clashes. -/
theorem mem_clashes_comm_of_isDisjoint (h : c.variableNames.isDisjoint d.variableNames = true) :
    k ∈ clashes d c ↔ k ∈ clashes c d := by
  rw [mem_clashes_iff, mem_clashes_iff, Clause.standardizeApart, Clause.standardizeApart, if_pos h,
    if_pos ((isDisjoint_comm c d).trans h), or_comm]

/-- Renaming both clauses renames their clashes. -/
theorem Clash.rename_mem_between (f : String → String) (hk : k ∈ between c d) :
    k.rename f ∈ between (c.rename f) (d.rename f) := by
  obtain ⟨p, hp, q, hq, rfl⟩ := mem_between.1 hk
  exact mem_between.2 ⟨_, SortedSet.mem_map.2 ⟨p, hp, rfl⟩, _, SortedSet.mem_map.2 ⟨q, hq, rfl⟩,
    rfl⟩

/-- The clashes of renamed clauses are renamed clashes. -/
theorem Clash.exists_of_mem_between_rename (hk : k ∈ between (c.rename f) (d.rename f)) :
    ∃ k' ∈ between c d, k = k'.rename f := by
  obtain ⟨_, hp', _, hq', rfl⟩ := mem_between.1 hk
  obtain ⟨p, hp, rfl⟩ := SortedSet.mem_map.1 hp'
  obtain ⟨q, hq, rfl⟩ := SortedSet.mem_map.1 hq'
  exact ⟨_, mem_between.2 ⟨p, hp, q, hq, rfl⟩, rfl⟩

/-- With a variable in common, the order of the clauses changes the marks in their clashes. -/
theorem exists_mem_clashes_rename (h : c.variableNames.isDisjoint d.variableNames = false)
    (hc : c.isOffsetFree = true) (hd : d.isOffsetFree = true) :
    ∃ S f, Set.InjOn f S ∧ (∀ k ∈ clashes c d, k.PlainOver S) ∧
      ∀ k, k ∈ clashes d c ↔ ∃ k' ∈ clashes c d, k = k'.rename f := by
  obtain ⟨f, hf, hl, hr⟩ := exists_exchange
  have hmarked : ∀ {e : Clause} {s : String}, e.isOffsetFree = true →
      Set.range (Term.suffixed s) ⊆ Set.range (Term.suffixed "l") ∪ Set.range (Term.suffixed "r") →
      (e.renameSuffix s).PlainOver
        (Set.range (Term.suffixed "l") ∪ Set.range (Term.suffixed "r")) := fun he hs ↦
    ((Clause.plainOver_variableNames he).rename _).mono ((Set.image_subset_range _ _).trans hs)
  have hexchange : ∀ e : Clause, (e.renameSuffix "l").rename f = e.renameSuffix "r" ∧
      (e.renameSuffix "r").rename f = e.renameSuffix "l" := fun e ↦ by
    simp only [Clause.renameSuffix, Clause.rename_rename, hl, hr, and_self]
  have hclashes : ∀ k, k ∈ clashes c d ↔
      k ∈ Clash.between (c.renameSuffix "l") (d.renameSuffix "r") ∨
        k ∈ Clash.between (d.renameSuffix "r") (c.renameSuffix "l") := fun k ↦ by
    rw [mem_clashes_iff, standardizeApart_of_shared h]
  have hclashes' : ∀ k, k ∈ clashes d c ↔
      k ∈ Clash.between ((d.renameSuffix "r").rename f) ((c.renameSuffix "l").rename f) ∨
        k ∈ Clash.between ((c.renameSuffix "l").rename f) ((d.renameSuffix "r").rename f) :=
    fun k ↦ by
      rw [mem_clashes_iff, standardizeApart_of_shared ((isDisjoint_comm c d).trans h),
        (hexchange d).2, (hexchange c).1]
  refine ⟨_, f, hf, fun k hk ↦ ?_, fun k ↦ ⟨fun hk ↦ ?_, ?_⟩⟩
  · have hcl := hmarked hc Set.subset_union_left
    have hdr := hmarked hd Set.subset_union_right
    rcases (hclashes k).1 hk with hk | hk <;> obtain ⟨p, hp, q, hq, rfl⟩ := mem_between.1 hk
    · exact ⟨hcl, hdr, hp, hq⟩
    · exact ⟨hdr, hcl, hp, hq⟩
  · rcases (hclashes' k).1 hk with hk | hk <;>
      obtain ⟨k', hk', rfl⟩ := Clash.exists_of_mem_between_rename hk
    · exact ⟨k', (hclashes k').2 (.inr hk'), rfl⟩
    · exact ⟨k', (hclashes k').2 (.inl hk'), rfl⟩
  · rintro ⟨k', hk', rfl⟩
    rcases (hclashes k').1 hk' with hk' | hk'
    · exact (hclashes' _).2 (.inr (Clash.rename_mem_between f hk'))
    · exact (hclashes' _).2 (.inl (Clash.rename_mem_between f hk'))

/-! ### Resolvents in both orders -/

/-- Resolvents that were found are those of inferences from all clashes, without error. -/
theorem resolvents_eq_ok (h : resolvents n c d = some (.ok l)) :
    ∃ r, inferFrom n (clashes c d) = some r ∧ r.fault = none ∧ l = r.resolvents := by
  obtain ⟨r, hr, h⟩ := Option.bind_eq_some_iff.1 h
  refine ⟨r, hr, ?_⟩
  cases hf : r.fault with
  | none =>
    rw [hf] at h
    cases h
    exact ⟨rfl, rfl⟩
  | some err =>
    rw [hf] at h
    cases h

/-- **Resolving is symmetric** for clauses without a common variable, and for clauses without
offsets whose conclusions have one factored form, whichever literals are merged first. If both
orders complete, both find the same resolvents. -/
theorem mem_resolvents_comm
    (hcd : c.variableNames.isDisjoint d.variableNames = true ∨
      c.isOffsetFree = true ∧ d.isOffsetFree = true ∧
        ∀ k ∈ clashes c d, ∀ e, k.Concludes e → e.FactorsUniquely)
    (hl : resolvents m c d = some (.ok l)) (hl' : resolvents n d c = some (.ok l')) :
    ∀ e, e ∈ l ↔ e ∈ l' := by
  obtain ⟨r, hr, hf, rfl⟩ := resolvents_eq_ok hl
  obtain ⟨r', hr', hf', rfl⟩ := resolvents_eq_ok hl'
  have hagree : (∀ k ∈ clashes c d, ∃ k' ∈ clashes d c, Clash.Agree m n k k') ∧
      ∀ k' ∈ clashes d c, ∃ k ∈ clashes c d, Clash.Agree m n k k' := by
    cases hdisjoint : c.variableNames.isDisjoint d.variableNames with
    | true =>
      exact ⟨fun k hk ↦ ⟨k, (mem_clashes_comm_of_isDisjoint hdisjoint).2 hk, .refl m n k⟩,
        fun k hk ↦ ⟨k, (mem_clashes_comm_of_isDisjoint hdisjoint).1 hk, .refl m n k⟩⟩
    | false =>
      obtain ⟨hc, hd, hunique⟩ := hcd.resolve_left (hdisjoint ▸ Bool.false_ne_true)
      obtain ⟨S, f, hf, hplain, hclashes⟩ := exists_mem_clashes_rename hdisjoint hc hd
      have hrename : ∀ k ∈ clashes c d, Clash.Agree m n k (k.rename f) := fun k hk ↦
        Clash.agree_rename (hplain k hk) hf (hunique k hk) m n
      refine ⟨fun k hk ↦ ⟨_, (hclashes _).2 ⟨k, hk, rfl⟩, hrename k hk⟩, fun k' hk' ↦ ?_⟩
      obtain ⟨k, hk, rfl⟩ := (hclashes k').1 hk'
      exact ⟨k, hk, hrename k hk⟩
  refine fun e ↦ ⟨mem_resolvents_of_agree hr hr' hf' hagree.1,
    mem_resolvents_of_agree hr' hr hf fun k' hk' ↦ ?_⟩
  obtain ⟨k, hk, h⟩ := hagree.2 k' hk'
  exact ⟨k, hk, h.symm⟩

/-- The clauses `p(x) ∨ r(x)` and `r(y) ∨ ¬p(x)` share the variable `x`. Their conclusion is
`r(x) ∨ r(y)`, with one mark on `x` and the other on `y`, and both orders merge it to `r(_0)`. -/
theorem mem_resolvents_comm_merged :
    let c := Clause.ofLists [.app "p" [.var "x" 0], .app "r" [.var "x" 0]] []
    let d := Clause.ofLists [.app "r" [.var "y" 0]] [.app "p" [.var "x" 0]]
    (∀ k ∈ clashes c d, ∀ e, k.Concludes e → e.FactorsUniquely) ∧
    ∃ l l', resolvents 3 c d = some (.ok l) ∧ resolvents 4 d c = some (.ok l') ∧
      Clause.ofLists [.app "r" [.var "_0" 0]] [] ∈ l ∧ ∀ e, e ∈ l ↔ e ∈ l' := by
  intro c d
  have hsize : ((clashes c d).all fun k ↦ decide (k.remainder.size ≤ 2)) = true := by
    decide +kernel
  have hunique : ∀ k ∈ clashes c d, ∀ e, k.Concludes e → e.FactorsUniquely := by
    rintro k hk e ⟨n, s, -, he⟩
    have hle := of_decide_eq_true (List.all_eq_true.1 hsize k hk)
    exact Clause.factorsUniquely_of_size_le_two ((Clause.size_apply_le he).trans hle)
  have hl : resolvents 3 c d = some (.ok [.ofLists [.app "r" [.var "_0" 0]] []]) := by
    decide +kernel
  have hl' : resolvents 4 d c = some (.ok [.ofLists [.app "r" [.var "_0" 0]] []]) := by
    decide +kernel
  exact ⟨hunique, _, _, hl, hl', List.mem_singleton_self _,
    mem_resolvents_comm (.inr ⟨by decide +kernel, by decide +kernel, hunique⟩) hl hl'⟩

/-! ### Resolvents that depend on the order -/

/-- An inference is put together from its steps, so that each can be computed by itself. -/
theorem Clash.infer?_of_steps {s : Substitution} {e : Clause} {b : Bool}
    (hs : mgu? n k.positive k.negated = some (some s)) (hc : k.remainder.apply s = .ok c)
    (hd : (c.factor n).run = some (.ok d)) (he : d.canonicalize = e)
    (hb : e.isTautological n = some b) :
    (k.infer? n).run = some (.ok (some ⟨k.positive, k.negated, e, b⟩)) := by
  rw [infer?_run, hs, Option.bind_some]
  dsimp only
  rw [hc]
  dsimp only
  rw [hd, Option.bind_some]
  dsimp only
  rw [he, hb, Option.map_some]

/-- When the first of two clashes has an inference and the other has none, there is one
resolvent. -/
theorem resolvents_of_clashes {i : Inference} (hk : clashes c d = [k, k'])
    (hi : (k.infer? n).run = some (.ok (some i))) (htaut : i.isTautology = false)
    (hnone : (k'.infer? n).run = some (.ok none)) :
    resolvents n c d = some (.ok [i.resolvent]) := by
  have hresolve : resolve n c d = some ⟨[i], none⟩ := by
    show inferFrom n (clashes c d) = _
    rw [hk, inferFrom_cons, hi, Option.bind_some, inferFrom_cons, hnone]
    rfl
  have hfilter : (Resolution.mk [i] none).resolvents = [i.resolvent] := by
    rw [Resolution.resolvents, List.filter_cons_of_pos (by rw [htaut]; rfl)]
    rfl
  rw [resolvents, hresolve]
  simp only [Option.bind_eq_bind, Option.bind_some, hfilter]
  rfl

/-- The clauses `p ∨ q(x, a)` and `q(x, b) ∨ q(A, y) ∨ ¬p` share the variable `x`, and `q(A, y)` can
be merged with `q(x, a)` or with `q(x, b)`. The one whose variable is marked `l` comes first. -/
theorem not_forall_mem_resolvents_comm : ¬ ∀ m n (c d : Clause) l l',
    resolvents m c d = some (.ok l) → resolvents n d c = some (.ok l') → ∀ e, e ∈ l ↔ e ∈ l' := by
  intro h
  let a : Term := .const (.symbol "a")
  let b : Term := .const (.symbol "b")
  let A : Term := .const (.symbol "A")
  let q (t u : Term) : Term := .app "q" [t, u]
  let c (x : String) : Clause := .ofLists [.app "p" [], q (.var x 0) a] []
  let d (x y : String) : Clause := .ofLists [q (.var x 0) b, q A (.var y 0)] [.app "p" []]
  have hl : resolvents 3 (c "x") (d "x" "y") =
      some (.ok [.ofLists [q A a, q (.var "_0" 0) b] []]) := by
    let k : Clash := ⟨c "x_l", d "x_r" "y_r", .app "p" [], .app "p" []⟩
    have hk : clashes (c "x") (d "x" "y") = [k, { k with positive := q (.var "x_l" 0) a }] := by
      decide +kernel
    refine resolvents_of_clashes hk (Clash.infer?_of_steps (s := ∅)
      (c := .ofLists [q (.var "x_l" 0) a, q (.var "x_r" 0) b, q A (.var "y_r" 0)] [])
      (d := .ofLists [q A a, q (.var "x_r" 0) b] []) ?_ ?_ ?_ ?_ ?_) rfl ?_
    · decide +kernel
    · decide +kernel
    · decide +kernel
    · exact (Clause.canonicalize_of_variableNames (x := "x_r") (by decide +kernel)).trans
        (by decide +kernel)
    · decide +kernel
    · rw [Clash.infer?_run]
      rfl
  have hl' : resolvents 3 (d "x" "y") (c "x") =
      some (.ok [.ofLists [q A b, q (.var "_0" 0) a] []]) := by
    let k : Clash := ⟨c "x_r", d "x_l" "y_l", .app "p" [], .app "p" []⟩
    have hk : clashes (d "x" "y") (c "x") = [k, { k with positive := q (.var "x_r" 0) a }] := by
      decide +kernel
    refine resolvents_of_clashes hk (Clash.infer?_of_steps (s := ∅)
      (c := .ofLists [q (.var "x_r" 0) a, q (.var "x_l" 0) b, q A (.var "y_l" 0)] [])
      (d := .ofLists [q A b, q (.var "x_r" 0) a] []) ?_ ?_ ?_ ?_ ?_) rfl ?_
    · decide +kernel
    · decide +kernel
    · decide +kernel
    · exact (Clause.canonicalize_of_variableNames (x := "x_r") (by decide +kernel)).trans
        (by decide +kernel)
    · decide +kernel
    · rw [Clash.infer?_run]
      rfl
  have hmem := (h 3 3 _ _ _ _ hl hl' _).1 List.mem_cons_self
  exact absurd hmem (by decide +kernel)

/-- With an offset, which name of a class stays is enough: `p(x) ∨ r(x)` and `¬p(x + 1)`. -/
example :
    resolvents 3 (.ofLists [.app "p" [.var "x" 0], .app "r" [.var "x" 0]] [])
      (.ofLists [] [.app "p" [.var "x" 1]]) =
        some (.ok [.ofLists [.app "r" [.var "_0" 0]] []]) ∧
    resolvents 3 (.ofLists [] [.app "p" [.var "x" 1]])
      (.ofLists [.app "p" [.var "x" 0], .app "r" [.var "x" 0]] []) =
        some (.ok [.ofLists [.app "r" [.var "_0" 1]] []]) := by
  decide +kernel

end OffsetLogic
