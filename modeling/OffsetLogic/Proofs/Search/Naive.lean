import OffsetLogic.Proofs.Search.Known

/-!
# Resolving new pairs only

A search that resolves **all** pairs of known clauses in every round, each clause with everything
before it, is simpler than the one that skips the pairs of settled clauses, and does more work. Both
find the same clauses in the same order, with the same parents, and end in the same way.

* `bare` forgets the effort: how many pairs were resolved and what was logged on the way. Whatever
  else a search holds or reports is compared.
* Pairs of settled clauses are **idle**: they were resolved in an earlier round, so resolving them
  again completes, finds nothing that is not there, and does not end the search
  (`exists_foldlM_resolved`).
* In a round over all pairs the idle ones come first, and what follows is the round over the new
  pairs (`newPairs_append`). So the two searches stay in step, round by round (`alike_round`), and
  every state of the sparing search has the invariant that makes the next round idle on old pairs.

## The simpler search is written independently

`refuteAll` does not share its pairs with the search that it is compared to. They are a
comprehension over positions (`pairsByLater`), in order of the later member and then of the earlier
one; that these are the new pairs of a list with nothing settled is a lemma
(`pairsByLater_eq_newPairs`). In this order the work that both searches do is done in the same
order, and so the same parents are recorded for a clause that could have been found in several ways.

## The invariant is needed on one side

The relation between the two states says that they differ in effort only, and it is kept by every
step that both searches take. Skipping is justified by what the sparing search has done before, so a
round is compared where that search is on its run (`Search.Ready`), and the relation carries this
along. Nothing like it has to be known of the search over all pairs.
-/

namespace OffsetLogic

/-! ### Effort -/

/-- The counts without those of the work on single pairs. -/
def Stats.bare (s : Stats) : Stats :=
  { s with pairsExamined := 0, resolventsGenerated := 0, tautologiesRemoved := 0 }

/-- The verdict without the effort. -/
def Verdict.bare : Verdict → Verdict
  | refuted d s => refuted d s.bare
  | saturated n s => saturated n s.bare

/-- The report without the effort. -/
def Report.bare (r : Report) : Report := ⟨r.stats.bare, #[], r.result.map Verdict.bare⟩

/-- The search without the effort. -/
def Search.bare (st : Search) : Search := { st with stats := st.stats.bare, events := #[] }

/-! ### The search over all pairs -/

/-- The pairs of a list, each member with every earlier one: in order of the later member, and then
of the earlier one. -/
def pairsByLater {α : Type} (l : List α) : List (α × α) :=
  l.zipIdx.flatMap fun e ↦ (l.take e.2).map (·, e.1)

namespace Search

/-- The search with all pairs of known clauses resolved. -/
def examineAll (infer : Clause → Clause → Budgeted Resolution) (config : Config) (st : Search) :
    ExceptT Report Budgeted Search := do
  let st ← st.begin config
  (pairsByLater st.known).foldlM (examine infer config) st

/-- The search with all pairs resolved that have a recent member. -/
def examineNew (infer : Clause → Clause → Budgeted Resolution) (config : Config) (st : Search) :
    ExceptT Report Budgeted Search := do
  let st ← st.begin config
  (newPairs st.settled st.recent).foldlM (examine infer config) st

/-- The search after one more round in which all pairs of known clauses are resolved. -/
def roundAll (infer : Clause → Clause → Budgeted Resolution) (config : Config) (st : Search) :
    ExceptT Report Budgeted Search := do
  let st ← st.examineAll infer config
  st.finish config

/-- Rounds over all pairs until the search ends; the budget bounds their number. -/
def saturateAll (infer : Clause → Clause → Budgeted Resolution) (config : Config) :
    Nat → Search → Budgeted Report
  | 0, _ => none
  | n + 1, st => do
    match ← (st.roundAll infer config).run with
    | .error report => return report
    | .ok st => saturateAll infer config n st

/-- The search after so many rounds of a kind. -/
def rounds (round : Search → ExceptT Report Budgeted Search) :
    Nat → Search → ExceptT Report Budgeted Search
  | 0, st => return st
  | r + 1, st => do rounds round r (← round st)

end Search

/-- The clauses of a search after `r + 1` rounds of a kind, in the order found; `examine` is the
part of the last one that resolves pairs, so whether the search goes on does not matter. -/
def Search.clausesAfter (round examine : Search → ExceptT Report Budgeted Search)
    (clauses : List Clause) (r : Nat) : ExceptT Report Budgeted (List Clause) := do
  let st := Search.start clauses
  if clauses.any Clause.isEmpty then
    throw ((st.log .emptyInput).refutedBy ∅ st.recent.length)
  let st ← examine (← rounds round r st)
  return st.trees.map ProofTree.clause

/-- Search for the empty clause by resolving all pairs of known clauses in every round. -/
def refuteAll (n : Nat) (config : Config) (clauses : List Clause) : Budgeted Report :=
  let st := Search.start clauses
  if clauses.any Clause.isEmpty then
    return (st.log .emptyInput).refutedBy ∅ st.recent.length
  else Search.saturateAll (resolve n) config n st

/-! ### Ending alike -/

/-- Two computations end alike: without an answer, with reports that differ in effort only, or with
related results. -/
inductive Alike {α β : Type} (R : α → β → Prop) :
    Budgeted (Except Report α) → Budgeted (Except Report β) → Prop where
  | none : Alike R none none
  | error {r r' : Report} : r.bare = r'.bare → Alike R (some (.error r)) (some (.error r'))
  | ok {a : α} {b : β} : R a b → Alike R (some (.ok a)) (some (.ok b))

/-- Sequences end alike when their first parts do, and the second parts do from related results on;
that the first part has ended with its result may be used. -/
theorem Alike.bind {α β α' β' : Type} {R : α → β → Prop} {R' : α' → β' → Prop}
    {x : ExceptT Report Budgeted α} {y : ExceptT Report Budgeted β}
    {f : α → ExceptT Report Budgeted α'} {g : β → ExceptT Report Budgeted β'}
    (h : Alike R x.run y.run) (hfg : ∀ a b, x.run = some (.ok a) → R a b →
      Alike R' (f a).run (g b).run) : Alike R' (x >>= f).run (y >>= g).run := by
  rw [ExceptT.run_bind, ExceptT.run_bind]
  generalize hx : x.run = x' at h
  generalize y.run = y' at h
  cases h with
  | none => exact .none
  | error hr => exact .error hr
  | ok hab => exact hfg _ _ hx hab

namespace Search

variable {infer : Clause → Clause → Budgeted Resolution} {config : Config} {n : Nat}
variable {clauses : List Clause} {st st' st₁ : Search} {pair : ProofTree × ProofTree}
variable {pairs : List (ProofTree × ProofTree)}

/-- The searches differ in effort only. -/
def Like (st st' : Search) : Prop := st.bare = st'.bare

/-- What can be read off a search without the effort agrees for like searches. -/
theorem Like.congr {α : Type} (f : Search → α) (h : st.Like st')
    (hf : ∀ st, f st = f st.bare := by exact fun _ ↦ rfl) : f st = f st' := by
  rw [hf st, hf st', h]

/-! ### Steps of like searches -/

/-- A resolvent is tested against the clauses, and effort is not looked at. -/
theorem alike_absorb {l r : ProofTree} {c : Clause} (h : st.Like st') :
    Alike Like (some (absorb config l r st c)) (some (absorb config l r st' c)) := by
  rw [absorb, absorb, h.congr (·.contains c)]
  cases c.isEmpty
  · cases st'.contains c
    · exact .ok (h.congr fun st ↦ ({ st with fresh := st.fresh ++ [_] } : Search).bare)
    · exact .ok h
  · exact .error (h.congr fun st ↦ ((st.log (.contradiction st.stats.rounds)).refutedBy
      (ProofTree.refutation l r) (st.known.length + st.fresh.length)).bare)

theorem alike_foldlM_absorb {l r : ProofTree} {cs : List Clause} (h : st.Like st') :
    Alike Like (some (cs.foldlM (absorb config l r) st))
      (some (cs.foldlM (absorb config l r) st')) := by
  induction cs generalizing st st' with
  | nil => exact .ok h
  | cons c cs ih =>
    have hstep : Alike Like (some (absorb config l r st c)) (some (absorb config l r st' c)) :=
      alike_absorb h
    rw [List.foldlM_cons, List.foldlM_cons]
    generalize absorb config l r st c = a at hstep
    generalize absorb config l r st' c = a' at hstep
    cases hstep with
    | error hr => exact .error hr
    | ok h₁ => exact ih h₁

theorem alike_examine (h : st.Like st') :
    Alike Like (st.examine infer config pair).run (st'.examine infer config pair).run := by
  rw [examine_run, examine_run]
  cases infer pair.1.clause pair.2.clause with
  | none => exact .none
  | some r =>
    have hrecord : (st.record r).Like (st'.record r) := h.congr fun st ↦ (st.record r).bare
    cases hf : r.fault with
    | some e =>
      simp only [Option.map_some, hf]
      exact .error (hrecord.congr fun st ↦ (st.faultReport e).bare)
    | none =>
      simp only [Option.map_some, hf]
      exact alike_foldlM_absorb hrecord

theorem alike_foldlM (h : st.Like st') :
    Alike Like (pairs.foldlM (Search.examine infer config) st).run
      (pairs.foldlM (Search.examine infer config) st').run := by
  induction pairs generalizing st st' with
  | nil => exact .ok h
  | cons pair pairs ih =>
    rw [List.foldlM_cons, List.foldlM_cons]
    exact (alike_examine h).bind fun _ _ _ h₁ ↦ ih h₁

/-- The counter of rounds is not effort: both searches begin the same round. -/
theorem alike_begin (h : st.Like st') :
    Alike Like (some (st.begin config)) (some (st'.begin config)) := by
  let next (st : Search) : Search :=
    { st with stats := { st.stats with rounds := st.stats.rounds + 1 } }
  show Alike Like
    (some (if Config.exceeds (next st).stats.rounds config.maxRounds then
      .error (next st).limitReport else .ok (next st)))
    (some (if Config.exceeds (next st').stats.rounds config.maxRounds then
      .error (next st').limitReport else .ok (next st')))
  rw [h.congr fun st ↦ (next st).stats.rounds]
  split
  · exact .error (h.congr fun st ↦ (next st).limitReport.bare)
  · exact .ok (h.congr fun st ↦ (next st).bare)

/-- What is known and what was found decide how a round ends. -/
theorem alike_finish (h : st.Like st') :
    Alike Like (some (st.finish config)) (some (st'.finish config)) := by
  let logged (st : Search) : Search :=
    st.log (.roundFinished st.stats.rounds st.known.length st.fresh.length)
  let next (st : Search) : Search :=
    { logged st with settled := st.known, recent := st.fresh, fresh := [] }
  show Alike Like
    (some (if st.fresh.isEmpty then .error (logged st).saturatedReport
      else if Config.exceeds (next st).known.length config.maxClauses then
        .error (next st).limitReport else .ok (next st)))
    (some (if st'.fresh.isEmpty then .error (logged st').saturatedReport
      else if Config.exceeds (next st').known.length config.maxClauses then
        .error (next st').limitReport else .ok (next st')))
  rw [h.congr (·.fresh.isEmpty), h.congr fun st ↦ (next st).known.length]
  split
  · exact .error (h.congr fun st ↦ (logged st).saturatedReport.bare)
  · split
    · exact .error (h.congr fun st ↦ (next st).limitReport.bare)
    · exact .ok (h.congr fun st ↦ (next st).bare)

/-! ### Idle pairs -/

/-- New pairs by the position of their later member. -/
theorem newPairs_eq_flatMap {α : Type} (settled recent : List α) : newPairs settled recent =
    recent.zipIdx.flatMap fun e ↦ (settled ++ recent.take e.2).map (·, e.1) := by
  induction recent generalizing settled with
  | nil => rfl
  | cons a recent ih =>
    simp [newPairs, ih, List.zipIdx_succ, List.flatMap_map]

theorem pairsByLater_eq_newPairs {α : Type} (l : List α) : pairsByLater l = newPairs [] l :=
  (newPairs_eq_flatMap [] l).symm

/-- The later member of a new pair is recent. -/
theorem snd_mem_of_mem_newPairs {α : Type} {settled recent : List α} {e : α × α}
    (he : e ∈ newPairs settled recent) : e.2 ∈ recent := by
  induction recent generalizing settled with
  | nil => cases he
  | cons a recent ih =>
    rcases List.mem_append.1 he with he | he
    · obtain ⟨b, -, rfl⟩ := List.mem_map.1 he
      exact List.mem_cons_self
    · exact List.mem_cons_of_mem a (ih he)

/-- Absorbing clauses that are there changes nothing. -/
theorem foldlM_absorb_of_contains {l r : ProofTree} {cs : List Clause}
    (hcs : cs ⊆ st.trees.map ProofTree.clause) (hne : ∀ t ∈ st.trees, t.clause ≠ ∅) :
    cs.foldlM (absorb config l r) st = .ok st := by
  induction cs with
  | nil => rfl
  | cons c cs ih =>
    obtain ⟨hc, hcs⟩ := List.cons_subset.1 hcs
    have hempty : c ≠ ∅ := by
      obtain ⟨t, ht, rfl⟩ := List.mem_map.1 hc
      exact hne t ht
    rw [List.foldlM_cons, absorb_eq_ok_iff.2 ⟨hempty, .inl ⟨contains_iff.2 hc, rfl⟩⟩]
    exact ih hcs

/-- Resolving pairs again that were resolved costs effort only. -/
theorem exists_foldlM_resolved (hpairs : ∀ pair ∈ pairs, Resolved infer st pair)
    (hne : ∀ t ∈ st.trees, t.clause ≠ ∅) : ∃ st',
      (pairs.foldlM (Search.examine infer config) st).run = some (.ok st') ∧ st'.Like st := by
  induction pairs generalizing st with
  | nil => exact ⟨st, rfl, rfl⟩
  | cons pair pairs ih =>
    obtain ⟨r, hr, hf, hsub⟩ := hpairs pair List.mem_cons_self
    have hexamine : (st.examine infer config pair).run = some (.ok (st.record r)) := by
      have habsorb : r.resolvents.foldlM (absorb config pair.1 pair.2) (st.record r) =
          .ok (st.record r) := foldlM_absorb_of_contains hsub hne
      rw [examine_run, hr, Option.map_some, hf]
      exact congrArg some habsorb
    have hresolved : ∀ pair ∈ pairs, Resolved infer (st.record r) pair :=
      fun pair hpair ↦ hpairs pair (List.mem_cons_of_mem _ hpair)
    obtain ⟨st', hst', hlike⟩ := ih hresolved hne
    refine ⟨st', ?_, hlike⟩
    rw [List.foldlM_cons, ExceptT.run_bind, hexamine]
    exact hst'

/-- At the beginning of a round the pairs of settled clauses are resolved. -/
theorem Consistent.resolved_settled
    (hc : Consistent infer config clauses st (newPairs st.settled st.recent)) :
    ∀ pair ∈ newPairs [] st.settled, Resolved infer st pair := by
  intro pair hpair
  have hold : pair ∈ orderedPairs st.settled := (newPairs_nil_perm _).mem_iff.1 hpair
  refine (hc.resolved pair (mem_orderedPairs_append.2 (.inl hold))).resolve_left fun hnew ↦ ?_
  -- the later member of a new pair is recent, and no clause is both settled and recent
  have hnodup : (st.settled.map ProofTree.clause ++ st.recent.map ProofTree.clause).Nodup := by
    rw [← List.map_append]
    exact hc.nodup.sublist ((List.sublist_append_left _ _).map _)
  exact (List.nodup_append.1 hnodup).2.2 _
    (List.mem_map_of_mem (mem_of_mem_orderedPairs hold).2) _
    (List.mem_map_of_mem (snd_mem_of_mem_newPairs hnew)) rfl

/-! ### Rounds in step -/

/-- The pairs of settled clauses come first in the search over all pairs; they are idle, and then
both searches resolve the new pairs. -/
theorem alike_examineAll (hst : Ready infer config clauses st) (h : st.Like st') :
    Alike Like (st.examineNew infer config).run (st'.examineAll infer config).run := by
  refine Alike.bind (x := ExceptT.mk (some (st.begin config)))
    (y := ExceptT.mk (some (st'.begin config))) (alike_begin h) fun st₁ st₂ hst₁ h₁ ↦ ?_
  have hc := (hst.begin (Option.some.inj hst₁)).consistent
  have htrees : st₁.trees = st₂.trees := h₁.congr trees
  -- the search over all pairs spends some effort on the old pairs, then both examine the new ones
  obtain ⟨st₃, hst₃, h₃⟩ : ∃ st₃, ((newPairs [] st₁.settled).foldlM (Search.examine infer config)
      st₂).run = some (.ok st₃) ∧ st₃.Like st₂ :=
    exists_foldlM_resolved
      (fun pair hpair ↦ (hc.resolved_settled pair hpair).mono (htrees ▸ List.Subset.refl _))
      (htrees ▸ hc.ne_empty)
  rw [← h₁.congr known, known, pairsByLater_eq_newPairs, newPairs_append, List.foldlM_append,
    ExceptT.run_bind, hst₃]
  exact alike_foldlM (h₁.trans h₃.symm)

/-- A round resolves its pairs and is finished. -/
theorem round_eq (infer : Clause → Clause → Budgeted Resolution) (config : Config) (st : Search) :
    st.round infer config = (do
      let st ← st.examineNew infer config
      st.finish config) := by
  simp [round, examineNew]

/-- When the new pairs have been resolved, none is left in the round. -/
theorem Ready.reached (hst : Ready infer config clauses st)
    (h : (st.examineNew infer config).run = some (.ok st₁)) :
    Reached infer config clauses st₁ [] := by
  rw [examineNew] at h
  cases hb : st.begin config with
  | error report =>
    rw [hb] at h
    cases h
  | ok st₀ =>
    rw [hb] at h
    exact (hst.begin hb).of_foldlM h

/-- One round of each search: the states stay alike, and the sparing search stays on its run. -/
theorem alike_round (hst : Ready infer config clauses st) (h : st.Like st') :
    Alike (fun st₁ st₂ ↦ st₁.Like st₂ ∧ Ready infer config clauses st₁)
      (st.round infer config).run (st'.roundAll infer config).run := by
  rw [round_eq, roundAll]
  refine (alike_examineAll hst h).bind fun st₁ st₂ hst₁ h₁ ↦ ?_
  have hreached := hst.reached hst₁
  have hfinish : Alike Like (some (st₁.finish config)) (some (st₂.finish config)) :=
    alike_finish h₁
  show Alike _ (some (st₁.finish config)) (some (st₂.finish config))
  generalize hf : st₁.finish config = a at hfinish
  generalize st₂.finish config = b at hfinish
  cases hfinish with
  | error hr => exact .error hr
  | ok h₃ => exact .ok ⟨h₃, .next hreached hf⟩

theorem alike_rounds (hst : Ready infer config clauses st) (h : st.Like st') (r : Nat) :
    Alike (fun st₁ st₂ ↦ st₁.Like st₂ ∧ Ready infer config clauses st₁)
      (rounds (round infer config) r st).run (rounds (roundAll infer config) r st').run := by
  induction r generalizing st st' with
  | zero => exact .ok ⟨h, hst⟩
  | succ r ih =>
    rw [rounds, rounds]
    exact (alike_round hst h).bind fun _ _ _ ⟨h₁, hst₁⟩ ↦ ih hst₁ h₁

/-- Both searches need the same number of rounds, so they end within the same budget, and with
reports that differ in effort only. -/
theorem bare_saturate (hst : Ready infer config clauses st) (h : st.Like st') (n : Nat) :
    (saturate infer config n st).map Report.bare =
      (saturateAll infer config n st').map Report.bare := by
  induction n generalizing st st' with
  | zero => rfl
  | succ n ih =>
    have hround := alike_round hst h
    rw [saturate, saturateAll]
    generalize (st.round infer config).run = a at hround
    generalize (st'.roundAll infer config).run = b at hround
    cases hround with
    | none => rfl
    | error hr => exact congrArg some hr
    | ok h₁ => exact ih h₁.2 h₁.1

/-- After any number of rounds the same clauses are known, in the same order. -/
theorem alike_clausesAfter (r : Nat) :
    Alike Eq (clausesAfter (round infer config) (examineNew infer config) clauses r).run
      (clausesAfter (roundAll infer config) (examineAll infer config) clauses r).run := by
  cases hempty : clauses.any Clause.isEmpty with
  | true =>
    simp only [clausesAfter, hempty, if_true]
    exact .error rfl
  | false =>
    simp only [clausesAfter, hempty, Bool.false_eq_true, if_false]
    refine (alike_rounds (.start hempty) rfl r).bind fun st₁ st₂ _ ⟨h₁, hst₁⟩ ↦ ?_
    exact (alike_examineAll hst₁ h₁).bind fun _ _ _ h₂ ↦
      .ok (h₂.congr fun st ↦ st.trees.map ProofTree.clause)

end Search

theorem bare_refute (n : Nat) (config : Config) (clauses : List Clause) :
    (refute n config clauses).map Report.bare = (refuteAll n config clauses).map Report.bare := by
  unfold refute refuteWith refuteAll
  dsimp only
  cases hempty : clauses.any Clause.isEmpty with
  | true => rfl
  | false => exact Search.bare_saturate (.start hempty) rfl n

/-- **Skipping old pairs changes nothing but the effort.** The search over new pairs and the search
over all pairs end with the same verdict and derivation or the same error, within the same budget,
and know the same clauses in the same order after every round. -/
theorem refute_eq_refuteAll (config : Config) (clauses : List Clause) :
    (∀ n, (refute n config clauses).map Report.bare =
      (refuteAll n config clauses).map Report.bare) ∧
    (∀ n r, Alike Eq
      (Search.clausesAfter (Search.round (resolve n) config) (Search.examineNew (resolve n) config)
        clauses r).run
      (Search.clausesAfter (Search.roundAll (resolve n) config)
        (Search.examineAll (resolve n) config) clauses r).run) ∧
    ((∃ n report, refute n config clauses = some report) ↔
      ∃ n report, refuteAll n config clauses = some report) := by
  refine ⟨fun n ↦ bare_refute n config clauses, fun _ r ↦ Search.alike_clausesAfter r,
    exists_congr fun n ↦ ?_⟩
  have hsome := congrArg Option.isSome (bare_refute n config clauses)
  rw [Option.isSome_map, Option.isSome_map] at hsome
  rw [← Option.isSome_iff_exists, ← Option.isSome_iff_exists, hsome]

end OffsetLogic
