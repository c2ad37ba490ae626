import OffsetLogic.Proofs.Search.Run

/-!
# What a search knows

The invariant of a run, `Consistent`: its clauses are distinct and not empty, the given ones stay
known, every other clause comes from two known ones, and **each pair of known clauses is either
still to be examined in this round or resolved**, which means that its resolvents are all among the
clauses of the search. The last part is what allows a round to skip the pairs of settled clauses.

A step keeps it (`Consistent.examine`, `Consistent.next`), so every state of a run has it
(`Reached.consistent`). When a search saturates, no pair is left and nothing is fresh, so the known
clauses are closed under resolution (`Ended.saturated`).

## What examining a pair does

Absorbing the resolvents of a pair is a fold in which each item may end the search, and it is opened
once. If none of them is empty, those that are new are added in their order, each once, since a rule
gives no resolvent twice (`foldlM_absorb_eq_ok`); otherwise the search is refuted by this pair
(`foldlM_absorb_eq_error`). `examine_eq_ok_add` says the same of the pair, and the invariant is
proved from it.

## How the invariant is used

Most properties of runs are about clauses one by one: they hold of the given ones and pass from two
parents to a resolvent. For these there is `Reached.clause_induction`, in which the step has the
state and the pair at hand, and `Ended.not_refuted` for a property that the empty clause lacks. What
the endings say is read off the invariant: a refutation comes from the pair examined last or from an
empty clause given, a saturated search has resolved all pairs, and a shift error is that of some
pair (`Ended.refuted`, `Ended.saturated`, `Ended.shift`).
-/

namespace OffsetLogic

theorem nodup_eraseDups {α : Type} [DecidableEq α] (l : List α) : l.eraseDups.Nodup := by
  match l with
  | [] => exact List.nodup_nil
  | a :: l =>
    have : (l.filter fun b ↦ !b == a).length < l.length + 1 :=
      Nat.lt_succ_of_le (List.length_filter_le _ l)
    rw [List.eraseDups_cons, List.nodup_cons]
    exact ⟨by simp, nodup_eraseDups _⟩
termination_by l.length

/-- A rule gives no resolvent twice, since resolvents are a set. -/
theorem Resolution.nodup_resolvents (r : Resolution) : r.resolvents.Nodup := nodup_eraseDups _

namespace Search

variable {infer : Clause → Clause → Budgeted Resolution} {config : Config}
variable {clauses : List Clause} {st st' : Search} {pair : ProofTree × ProofTree}
variable {todo : List (ProofTree × ProofTree)} {report : Report}

/-- Resolving two clauses completes, and `c` is among the resolvents. -/
def Infers (infer : Clause → Clause → Budgeted Resolution) (a b c : Clause) : Prop :=
  ∃ r, infer a b = some r ∧ r.fault = none ∧ c ∈ r.resolvents

/-- Resolving a pair completes, and all resolvents are among the clauses of the search. -/
def Resolved (infer : Clause → Clause → Budgeted Resolution) (st : Search)
    (pair : ProofTree × ProofTree) : Prop :=
  ∃ r, infer pair.1.clause pair.2.clause = some r ∧ r.fault = none ∧
    r.resolvents ⊆ st.trees.map ProofTree.clause

/-- The tree was given, or made by resolving two known clauses. -/
def Justified (infer : Clause → Clause → Budgeted Resolution) (config : Config)
    (clauses : List Clause) (st : Search) (t : ProofTree) : Prop :=
  (∃ c ∈ clauses, t = .given c) ∨
    ∃ l ∈ st.known, ∃ r ∈ st.known, ∃ c, t = node config l r c ∧ Infers infer l.clause r.clause c

/-- The invariant of a run. -/
structure Consistent (infer : Clause → Clause → Budgeted Resolution) (config : Config)
    (clauses : List Clause) (st : Search) (todo : List (ProofTree × ProofTree)) : Prop where
  /-- No clause is there twice. -/
  nodup : (st.trees.map ProofTree.clause).Nodup
  /-- The empty clause is not there. -/
  ne_empty : ∀ t ∈ st.trees, t.clause ≠ ∅
  /-- What was given is known. -/
  given : ∀ c ∈ clauses, ProofTree.given c ∈ st.known
  /-- Whatever is there was given or inferred. -/
  justified : ∀ t ∈ st.trees, Justified infer config clauses st t
  /-- Only pairs of known clauses are left to be examined. -/
  todo_subset : todo ⊆ orderedPairs st.known
  /-- The other pairs of known clauses are resolved. -/
  resolved : ∀ pair ∈ orderedPairs st.known, pair ∈ todo ∨ Resolved infer st pair

/-! ### Absorbing resolvents -/

/-- Absorbing distinct resolvents adds those that are new, in order. -/
theorem foldlM_absorb_eq_ok {l r : ProofTree} {cs : List Clause} (hcs : cs.Nodup)
    (h : cs.foldlM (absorb config l r) st = .ok st') :
    (∀ c ∈ cs, c ≠ ∅) ∧ st' = { st with
      fresh := st.fresh ++ (cs.filter (!st.contains ·)).map (node config l r) } := by
  induction cs generalizing st with
  | nil =>
    cases h
    simp
  | cons c cs ih =>
    obtain ⟨hc, hcs⟩ := List.nodup_cons.1 hcs
    rw [List.foldlM_cons] at h
    cases ha : absorb config l r st c with
    | error report =>
      rw [ha] at h
      cases h
    | ok st₁ =>
      rw [ha] at h
      obtain ⟨hne, rfl⟩ := ih hcs h
      obtain ⟨hc₀, ⟨hk, rfl⟩ | ⟨hk, rfl⟩⟩ := absorb_eq_ok_iff.1 ha
      · simpa [hc₀, hk] using hne
      · refine ⟨by simpa [hc₀] using hne, ?_⟩
        -- `c` is not among the later resolvents, so having added it changes nothing for them
        have hsame : ∀ d ∈ cs, (!({ st with fresh := st.fresh ++ [node config l r c] } :
            Search).contains d) = !st.contains d := by
          intro d hd
          have hdc : d ≠ c := fun hdc ↦ hc (hdc ▸ hd)
          rw [Bool.eq_iff_iff]
          simp [← Bool.not_eq_true, contains_iff, trees, known, hdc]
        simp [hk, List.filter_congr hsame]

/-- Absorbing resolvents ends a search only at the empty clause, with a refutation. -/
theorem foldlM_absorb_eq_error {l r : ProofTree} {cs : List Clause}
    (h : cs.foldlM (absorb config l r) st = .error report) :
    ∅ ∈ cs ∧ ∃ stats, report.result = .ok (.refuted (ProofTree.refutation l r) stats) := by
  obtain ⟨c, rest, st₁, hsub, he⟩ := foldlM_error_induction (I := fun rest _ ↦ rest ⊆ cs) h
    (List.Subset.refl _) fun c rest _ _ h _ ↦ fun _ hb ↦ h (List.mem_cons_of_mem c hb)
  obtain ⟨rfl, rfl⟩ := absorb_eq_error_iff.1 he
  exact ⟨hsub List.mem_cons_self, _, rfl⟩

/-- Examining a pair leaves what is known and adds the new resolvents. -/
theorem examine_eq_ok_add (h : (st.examine infer config pair).run = some (.ok st')) :
    ∃ r, infer pair.1.clause pair.2.clause = some r ∧ r.fault = none ∧
      (∀ c ∈ r.resolvents, c ≠ ∅) ∧ st'.known = st.known ∧
      st'.trees = st.trees ++
        (r.resolvents.filter (!st.contains ·)).map (node config pair.1 pair.2) := by
  obtain ⟨r, hr, hf, h⟩ := examine_eq_ok h
  obtain ⟨hne, rfl⟩ := foldlM_absorb_eq_ok r.nodup_resolvents h
  exact ⟨r, hr, hf, hne, rfl, (List.append_assoc ..).symm⟩

theorem known_of_foldlM (h : (todo.foldlM (Search.examine infer config) st).run = some (.ok st')) :
    st'.known = st.known :=
  eq_of_foldlM (fun h ↦ have ⟨_, _, _, _, hknown, _⟩ := examine_eq_ok_add h; hknown) h

/-! ### The invariant is kept -/

/-- A pair that is resolved stays resolved when clauses are added. -/
theorem Resolved.mono (h : Resolved infer st pair) (hst : st.trees ⊆ st'.trees) :
    Resolved infer st' pair := by
  obtain ⟨r, hr, hf, hsub⟩ := h
  exact ⟨r, hr, hf, fun c hc ↦ List.map_subset _ hst (hsub hc)⟩

theorem Justified.mono {t : ProofTree} (h : Justified infer config clauses st t)
    (hst : st.known ⊆ st'.known) : Justified infer config clauses st' t := by
  obtain h | ⟨l, hl, r, hr, h⟩ := h
  · exact .inl h
  · exact .inr ⟨l, hst hl, r, hst hr, h⟩

/-- The members of the pair that is examined next are known. -/
theorem Consistent.mem_known (h : Consistent infer config clauses st (pair :: todo)) :
    pair.1 ∈ st.known ∧ pair.2 ∈ st.known :=
  mem_of_mem_orderedPairs (h.todo_subset List.mem_cons_self)

/-- Before the first pair all pairs of the given clauses are still to be examined. -/
theorem Consistent.start (hempty : clauses.any Clause.isEmpty = false)
    (h : (Search.start clauses).begin config = .ok st) :
    Consistent infer config clauses st (newPairs st.settled st.recent) := by
  obtain ⟨-, rfl⟩ := begin_eq_ok_iff.1 h
  have htrees : (Search.start clauses).trees = clauses.eraseDups.map .given := by
    simp [trees, known, Search.start, log]
  have hmem : ∀ t ∈ clauses.eraseDups.map ProofTree.given, ∃ c ∈ clauses, t = .given c := by
    intro t ht
    obtain ⟨c, hc, rfl⟩ := List.mem_map.1 ht
    exact ⟨c, List.mem_eraseDups.1 hc, rfl⟩
  constructor
  · show ((Search.start clauses).trees.map ProofTree.clause).Nodup
    rw [htrees, List.map_map]
    exact (List.map_id' clauses.eraseDups).symm ▸ nodup_eraseDups clauses
  · show ∀ t ∈ (Search.start clauses).trees, _
    rw [htrees]
    rintro t ht hc
    obtain ⟨c, hcs, rfl⟩ := hmem t ht
    exact List.any_eq_false.1 hempty c hcs (Clause.isEmpty_iff.2 hc)
  · intro c hc
    exact List.mem_map_of_mem (List.mem_eraseDups.2 hc)
  · show ∀ t ∈ (Search.start clauses).trees, _
    rw [htrees]
    exact fun t ht ↦ .inl (hmem t ht)
  · exact fun pair hpair ↦ mem_orderedPairs_append.2 (.inr hpair)
  · intro pair hpair
    exact .inl ((mem_orderedPairs_append.1 hpair).resolve_left List.not_mem_nil)

/-- The pair that was examined is resolved now, and the clauses added come from its members. -/
theorem Consistent.examine (hc : Consistent infer config clauses st (pair :: todo))
    (h : (st.examine infer config pair).run = some (.ok st')) :
    Consistent infer config clauses st' todo := by
  obtain ⟨r, hr, hf, hne, hknown, htrees⟩ := examine_eq_ok_add h
  have hsub : st.trees ⊆ st'.trees := htrees ▸ List.subset_append_left _ _
  have hpair := hc.mem_known
  -- the clauses of the new trees are the resolvents that were not there
  have hnew : ((r.resolvents.filter (!st.contains ·)).map (node config pair.1 pair.2)).map
      ProofTree.clause = r.resolvents.filter (!st.contains ·) := by
    simp [Function.comp_def]
  constructor
  · rw [htrees, List.map_append, hnew]
    refine List.nodup_append.2 ⟨hc.nodup, r.nodup_resolvents.filter _, fun c hct d hd hcd ↦ ?_⟩
    have hcon := (List.mem_filter.1 hd).2
    rw [← hcd, contains_iff.2 hct] at hcon
    cases hcon
  · intro t ht
    rcases List.mem_append.1 (htrees ▸ ht) with ht | ht
    · exact hc.ne_empty t ht
    · obtain ⟨c, hc, rfl⟩ := List.mem_map.1 ht
      rw [clause_node]
      exact hne c (List.mem_filter.1 hc).1
  · rw [hknown]
    exact hc.given
  · intro t ht
    rcases List.mem_append.1 (htrees ▸ ht) with ht | ht
    · exact (hc.justified t ht).mono (hknown ▸ List.Subset.refl _)
    · obtain ⟨c, hc, rfl⟩ := List.mem_map.1 ht
      exact .inr ⟨pair.1, hknown ▸ hpair.1, pair.2, hknown ▸ hpair.2, c, rfl, r, hr, hf,
        (List.mem_filter.1 hc).1⟩
  · rw [hknown]
    exact fun e he ↦ hc.todo_subset (List.mem_cons_of_mem _ he)
  · rw [hknown]
    intro e he
    rcases hc.resolved e he with he | he
    · rcases List.mem_cons.1 he with rfl | he
      · refine .inr ⟨r, hr, hf, fun c hcr ↦ ?_⟩
        rw [htrees, List.map_append, hnew, List.mem_append, ← contains_iff, List.mem_filter]
        cases st.contains c <;> simp [hcr]
      · exact .inl he
    · exact .inr (he.mono hsub)

/-- When a round is over no pair is left. What it found becomes known, and the pairs that this adds
are those of the next round. -/
theorem Consistent.next {st₁ : Search} (hc : Consistent infer config clauses st [])
    (hf : st.finish config = .ok st₁) (hb : st₁.begin config = .ok st') :
    Consistent infer config clauses st' (newPairs st'.settled st'.recent) := by
  obtain ⟨-, -, rfl⟩ := finish_eq_ok_iff.1 hf
  obtain ⟨-, rfl⟩ := begin_eq_ok_iff.1 hb
  have htrees := st.trees_advance
  have hsub := st.known_subset_trees
  constructor
  · show (st.advance.trees.map ProofTree.clause).Nodup
    exact htrees ▸ hc.nodup
  · show ∀ t ∈ st.advance.trees, _
    exact htrees ▸ hc.ne_empty
  · exact fun c hcs ↦ hsub (hc.given c hcs)
  · show ∀ t ∈ st.advance.trees, _
    rw [htrees]
    exact fun t ht ↦ (hc.justified t ht).mono hsub
  · exact fun pair hpair ↦ mem_orderedPairs_append.2 (.inr hpair)
  · intro pair hpair
    -- an old pair was resolved in the round that ends, since none of its pairs is left
    refine (mem_orderedPairs_append.1 hpair).symm.imp_right fun hpair ↦ ?_
    have hres := (hc.resolved pair hpair).resolve_left List.not_mem_nil
    exact hres.mono (htrees ▸ List.Subset.refl st.advance.trees)

/-- Every state of a run satisfies the invariant. -/
theorem Reached.consistent (h : Reached infer config clauses st todo) :
    Consistent infer config clauses st todo := by
  induction h with
  | start hempty hb => exact .start hempty hb
  | examine _ he ih => exact ih.examine he
  | next _ hf hb ih => exact ih.next hf hb

/-- A property of clauses that holds of the given ones, and passes from each examined pair to its
resolvents, holds of all clauses of a run. -/
theorem Reached.clause_induction {P : Clause → Prop} (h : Reached infer config clauses st todo)
    (given : ∀ c ∈ clauses, P c)
    (step : ∀ st pair todo c, Reached infer config clauses st (pair :: todo) → P pair.1.clause →
      P pair.2.clause → Infers infer pair.1.clause pair.2.clause c → P c) :
    ∀ t ∈ st.trees, P t.clause := by
  induction h with
  | start hempty hb =>
    obtain ⟨-, rfl⟩ := begin_eq_ok_iff.1 hb
    intro t ht
    rcases List.mem_append.1 ht with ht | ht
    · obtain ⟨c, hc, rfl⟩ := List.mem_map.1 (by simpa [known, Search.start, log] using ht)
      exact given c hc
    · cases ht
  | @examine st st' pair todo hr he ih =>
    obtain ⟨r, hi, hf, -, -, htrees⟩ := examine_eq_ok_add he
    have hpair := hr.consistent.mem_known
    have hknown := st.known_subset_trees
    intro t ht
    rcases List.mem_append.1 (htrees ▸ ht) with ht | ht
    · exact ih t ht
    · obtain ⟨c, hc, rfl⟩ := List.mem_map.1 ht
      rw [clause_node]
      exact step st pair todo c hr (ih _ (hknown hpair.1)) (ih _ (hknown hpair.2))
        ⟨r, hi, hf, (List.mem_filter.1 hc).1⟩
  | @next st st₁ st₂ _ hf hb ih =>
    obtain ⟨-, -, rfl⟩ := finish_eq_ok_iff.1 hf
    obtain ⟨-, rfl⟩ := begin_eq_ok_iff.1 hb
    intro t ht
    have ht : t ∈ st.advance.trees := ht
    exact ih t (st.trees_advance ▸ ht)

/-! ### What a verdict says -/

/-- A refutation is the empty clause given, or inferred from the pair examined last. -/
theorem Ended.refuted {derivation : Derivation} {stats : Stats}
    (h : Ended infer config clauses report) (hr : report.result = .ok (.refuted derivation stats)) :
    clauses.any Clause.isEmpty = true ∧ derivation = ∅ ∨
      ∃ st pair todo, Reached infer config clauses st (pair :: todo) ∧
        Infers infer pair.1.clause pair.2.clause ∅ ∧
        derivation = ProofTree.refutation pair.1 pair.2 := by
  cases h with
  | emptyInput hempty =>
    cases hr
    exact .inl ⟨hempty, rfl⟩
  | @examine st pair todo _ hreach he =>
    obtain ⟨r, hi, ⟨e, -, rfl⟩ | ⟨hf, he⟩⟩ := examine_eq_error he
    · cases hr
    · obtain ⟨hmem, _, hreport⟩ := foldlM_absorb_eq_error he
      cases hreport.symm.trans hr
      exact .inr ⟨st, pair, todo, hreach, ⟨r, hi, hf, hmem⟩, rfl⟩
  | finish _ he =>
    obtain ⟨-, _, he⟩ | ⟨_, _, he⟩ := finish_eq_error he <;> rw [he] at hr <;> cases hr
  | begin _ he =>
    obtain ⟨_, _, he⟩ := begin_eq_error he
    rw [he] at hr
    cases hr

/-- Clauses are not refuted when they have a property that passes from each examined pair to its
resolvents and that the empty clause does not have. -/
theorem Ended.not_refuted {P : Clause → Prop} {derivation : Derivation} {stats : Stats}
    (h : Ended infer config clauses report) (given : ∀ c ∈ clauses, P c)
    (step : ∀ st pair todo c, Reached infer config clauses st (pair :: todo) → P pair.1.clause →
      P pair.2.clause → Infers infer pair.1.clause pair.2.clause c → P c) (hempty : ¬ P ∅) :
    report.result ≠ .ok (.refuted derivation stats) := by
  intro hr
  obtain ⟨hany, -⟩ | ⟨st, pair, todo, hreach, hinfers, -⟩ := h.refuted hr
  · obtain ⟨c, hc, hce⟩ := List.any_eq_true.1 hany
    exact hempty (Clause.isEmpty_iff.1 hce ▸ given c hc)
  · have hpair := hreach.consistent.mem_known
    have hknown := st.known_subset_trees
    have hall := hreach.clause_induction given step
    exact hempty (step st pair todo ∅ hreach (hall _ (hknown hpair.1)) (hall _ (hknown hpair.2))
      hinfers)

/-- Examining a pair ends a search in a refutation or in an error of shifting. -/
theorem result_of_examine (h : (st.examine infer config pair).run = some (.error report)) :
    (∃ derivation stats, report.result = .ok (.refuted derivation stats)) ∨
      ∃ e, report.result = .error (.shift e) := by
  obtain ⟨r, -, ⟨e, -, rfl⟩ | ⟨-, he⟩⟩ := examine_eq_error h
  · exact .inr ⟨e, rfl⟩
  · exact .inl ⟨_, (foldlM_absorb_eq_error he).2⟩

theorem ne_saturated_of_examine {n : Nat} {stats : Stats}
    (h : (st.examine infer config pair).run = some (.error report)) :
    report.result ≠ .ok (.saturated n stats) := by
  intro hr
  obtain ⟨_, _, he⟩ | ⟨_, he⟩ := result_of_examine h <;> cases hr.symm.trans he

theorem ne_limit_of_examine {rounds count : Nat}
    (h : (st.examine infer config pair).run = some (.error report)) :
    report.result ≠ .error (.limit rounds count) := by
  intro hr
  obtain ⟨_, _, he⟩ | ⟨_, he⟩ := result_of_examine h <;> cases hr.symm.trans he

/-- When a search saturates, no pair is left and the resolvents of known clauses are known. -/
theorem Ended.saturated {n : Nat} {stats : Stats} (h : Ended infer config clauses report)
    (hr : report.result = .ok (.saturated n stats)) :
    ∃ st, Reached infer config clauses st [] ∧ st.fresh = [] ∧ n = st.known.length ∧
      ∀ pair ∈ orderedPairs st.known, Resolved infer st pair := by
  cases h with
  | emptyInput => cases hr
  | examine _ he => exact absurd hr (ne_saturated_of_examine he)
  | @finish st _ hreach he =>
    obtain ⟨hfresh, _, he⟩ | ⟨_, _, he⟩ := finish_eq_error he <;> rw [he] at hr <;> cases hr
    exact ⟨st, hreach, hfresh, rfl, fun pair hpair ↦
      (hreach.consistent.resolved pair hpair).resolve_left List.not_mem_nil⟩
  | begin _ he =>
    obtain ⟨_, _, he⟩ := begin_eq_error he
    rw [he] at hr
    cases hr

/-- A search ends with a shift error when resolving a pair ends with it. -/
theorem Ended.shift {e : ShiftError} (h : Ended infer config clauses report)
    (hr : report.result = .error (.shift e)) :
    ∃ st pair todo r, Reached infer config clauses st (pair :: todo) ∧
      infer pair.1.clause pair.2.clause = some r ∧ r.fault = some e := by
  cases h with
  | emptyInput => cases hr
  | @examine st pair todo _ hreach he =>
    obtain ⟨r, hi, ⟨e', hf, rfl⟩ | ⟨-, he⟩⟩ := examine_eq_error he
    · cases hr
      exact ⟨st, pair, todo, r, hreach, hi, hf⟩
    · obtain ⟨-, _, hreport⟩ := foldlM_absorb_eq_error he
      cases hreport.symm.trans hr
  | finish _ he =>
    obtain ⟨-, _, he⟩ | ⟨_, _, he⟩ := finish_eq_error he <;> rw [he] at hr <;> cases hr
  | begin _ he =>
    obtain ⟨_, _, he⟩ := begin_eq_error he
    rw [he] at hr
    cases hr

/-- When a search has saturated, two different known clauses were resolved, in one order. -/
theorem exists_resolved (hfresh : st.fresh = [])
    (hres : ∀ pair ∈ orderedPairs st.known, Resolved infer st pair) {c d : Clause}
    (hc : c ∈ st.known.map ProofTree.clause) (hd : d ∈ st.known.map ProofTree.clause)
    (hcd : c ≠ d) : ∃ pair ∈ orderedPairs st.known,
      (pair.1.clause = c ∧ pair.2.clause = d ∨ pair.1.clause = d ∧ pair.2.clause = c) ∧
      ∃ r, infer pair.1.clause pair.2.clause = some r ∧ r.fault = none ∧
        r.resolvents ⊆ st.known.map ProofTree.clause := by
  have htrees := trees_of_fresh hfresh
  obtain ⟨a, ha, rfl⟩ := List.mem_map.1 hc
  obtain ⟨b, hb, rfl⟩ := List.mem_map.1 hd
  rcases mem_orderedPairs_or_swap ha hb fun hab ↦ hcd (hab ▸ rfl) with hpair | hpair
  · exact ⟨_, hpair, .inl ⟨rfl, rfl⟩, htrees ▸ hres _ hpair⟩
  · exact ⟨_, hpair, .inr ⟨rfl, rfl⟩, htrees ▸ hres _ hpair⟩

end Search

end OffsetLogic
