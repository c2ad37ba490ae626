import Mathlib.Data.List.Nodup
import OffsetLogic.Proofs.Search.Termination

/-!
# Every pair once

A search that saturates has resolved **every pair of its known clauses exactly once**, the earlier
clause first, although the pairs are spread over rounds and the list of clauses grows meanwhile.

What is handed to the rule is not part of a report, so it is **recorded**. The search is written
once more for rules with effects (`refuteIn`), so that it can only reach the record through the
rule, and run with a rule that keeps its arguments (`recording`). That does not change the answer
(`run_refuteIn`). Two invariants carry the result.

* When a round begins, the recorded pairs are those of the settled clauses, and the new pairs of the
  round are what they lack to those of all known clauses (`Search.calls_of_round`).
* The counts agree with the pairs and the events (`Search.Counted`).

## Why a record, and not a count

The search counts the pairs that it examines, but a count says nothing about which they are, and a
list computed beside the search would say nothing about what was handed to the rule. In a monad that
the search does not know, the rule is the only operation with an effect. The record is then a trace
of its calls in their order, and the theorem about it cannot be true of a search that calls the rule
elsewhere or twice.

## Once, and in which order

The record of a saturated run is `newPairs [] known`, which is a permutation of all pairs of the
known clauses. Known clauses are distinct, so a pair is not there twice, and not in the other order
either (`swap_notMem_orderedPairs`, `count_orderedPairs_add`). From the length of this list the
number of pairs is that of two elements out of `k`.
-/

namespace OffsetLogic

/-! ### Pairs of a list without repetition -/

section Pairs

variable {α : Type} {l : List α} {a b : α}

/-- The first member of a pair stands before the second. -/
theorem sublist_of_mem_orderedPairs (h : (a, b) ∈ orderedPairs l) : [a, b].Sublist l := by
  induction l with
  | nil => cases h
  | cons c l ih =>
    rcases List.mem_append.1 h with hfirst | hrest
    · obtain ⟨b', hb', heq⟩ := List.mem_map.1 hfirst
      cases heq
      exact (List.singleton_sublist.2 hb').cons_cons a
    · exact (ih hrest).cons c

/-- A pair is not there in the other order, too. -/
theorem swap_notMem_orderedPairs (hl : l.Nodup) (h : (a, b) ∈ orderedPairs l) :
    (b, a) ∉ orderedPairs l := by
  induction l with
  | nil => cases h
  | cons c l ih =>
    obtain ⟨hc, hl⟩ := List.nodup_cons.1 hl
    intro hswap
    rcases List.mem_append.1 h with hfirst | hrest
    · obtain ⟨b', hb', heq⟩ := List.mem_map.1 hfirst
      cases heq
      rcases List.mem_append.1 hswap with hfirst' | hrest'
      · obtain ⟨a', ha', heq⟩ := List.mem_map.1 hfirst'
        cases heq
        exact hc hb'
      · exact hc (mem_of_mem_orderedPairs hrest').2
    · rcases List.mem_append.1 hswap with hfirst' | hrest'
      · obtain ⟨a', ha', heq⟩ := List.mem_map.1 hfirst'
        cases heq
        exact hc (mem_of_mem_orderedPairs hrest).2
      · exact ih hl hrest hrest'

/-- Two different members are one pair. -/
theorem count_orderedPairs_add [BEq α] [LawfulBEq α] (hl : l.Nodup) (ha : a ∈ l) (hb : b ∈ l)
    (hab : a ≠ b) : (orderedPairs l).count (a, b) + (orderedPairs l).count (b, a) = 1 := by
  have hnodup := nodup_orderedPairs hl
  rcases mem_orderedPairs_or_swap ha hb hab with h | h
  · rw [List.count_eq_one_of_mem hnodup h, List.count_eq_zero.2 (swap_notMem_orderedPairs hl h)]
  · rw [List.count_eq_one_of_mem hnodup h, List.count_eq_zero.2 (swap_notMem_orderedPairs hl h)]

end Pairs

/-! ### The search in a monad -/

namespace Search

section Effects

variable {m : Type → Type} [Monad m]

/-- The search with one pair of clauses resolved, under a rule with effects. -/
def examineIn (infer : Clause → Clause → OptionT m Resolution) (config : Config) (st : Search)
    (pair : ProofTree × ProofTree) : ExceptT Report (OptionT m) Search := do
  let resolution ← infer pair.1.clause pair.2.clause
  let st := st.record resolution
  match resolution.fault with
  | some e => throw (st.faultReport e)
  | none => (resolution.resolvents.foldlM (absorb config pair.1 pair.2) st : Except Report Search)

/-- The search after one more round, under a rule with effects. -/
def roundIn (infer : Clause → Clause → OptionT m Resolution) (config : Config) (st : Search) :
    ExceptT Report (OptionT m) Search := do
  let st ← st.begin config
  let st ← (newPairs st.settled st.recent).foldlM (examineIn infer config) st
  st.finish config

/-- Rounds until the search ends, under a rule with effects. -/
def saturateIn (infer : Clause → Clause → OptionT m Resolution) (config : Config) :
    Nat → Search → OptionT m Report
  | 0, _ => failure
  | n + 1, st => do
    match ← (st.roundIn infer config).run with
    | .error report => return report
    | .ok st => saturateIn infer config n st

end Effects

end Search

/-- Search for the empty clause under a rule with effects; the budget bounds the number of
rounds. -/
def refuteIn {m : Type → Type} [Monad m] (infer : Clause → Clause → OptionT m Resolution)
    (config : Config) (n : Nat) (clauses : List Clause) : OptionT m Report :=
  let st := Search.start clauses
  if clauses.any Clause.isEmpty then
    return (st.log .emptyInput).refutedBy ∅ st.recent.length
  else Search.saturateIn infer config n st

/-- A rule that also keeps the pairs handed to it, in order. -/
def recording (infer : Clause → Clause → Budgeted Resolution) (a b : Clause) :
    OptionT (StateM (List (Clause × Clause))) Resolution := do
  modify (· ++ [(a, b)])
  OptionT.mk (pure (infer a b))

/-- The event tells of a resolvent. -/
def Event.isResolvent (e : Event) : Bool := e.level == .trace && e.message? == some "resolvent"

/-- Each inference is told, or dropped as a tautology. -/
theorem Resolution.countP_events (r : Resolution) :
    r.events.countP Event.isResolvent + r.tautologies = r.inferences.length := by
  have htold : (Event.isResolvent ∘ fun i : Inference ↦
      .resolved i.positive i.negated i.resolvent) = fun _ ↦ true := rfl
  rw [events, tautologies, List.countP_map, htold, List.countP_true,
    ← List.countP_eq_length_filter, Nat.add_comm]
  simpa using (List.length_eq_countP_add_countP Inference.isTautology).symm

variable {infer : Clause → Clause → Budgeted Resolution} {config : Config} {n k : Nat}
variable {clauses : List Clause} {report : Report} {stats : Stats}

namespace Search

variable {st st' : Search} {pair : ProofTree × ProofTree}
variable {todo : List (ProofTree × ProofTree)} {calls : List (Clause × Clause)}

/-! ### Recorded steps -/

/-- A recorded computation goes on where its first step does. -/
theorem run_bind_recorded {α β : Type}
    (x : ExceptT Report (OptionT (StateM (List (Clause × Clause)))) α)
    (f : α → ExceptT Report (OptionT (StateM (List (Clause × Clause)))) β)
    (calls : List (Clause × Clause)) :
    (x >>= f).run.run.run calls =
      match x.run.run.run calls with
      | (none, calls) => (none, calls)
      | (some (.error report), calls) => (some (.error report), calls)
      | (some (.ok a), calls) => (f a).run.run.run calls := by
  rw [ExceptT.run_bind, OptionT.run_bind, Option.elimM, StateT.run_bind]
  obtain ⟨r, calls'⟩ := x.run.run.run calls
  cases r with
  | none => rfl
  | some r => cases r <;> rfl

/-- The recorded search with one pair more: the same result, and one call more. -/
theorem run_examineIn (st : Search) (pair : ProofTree × ProofTree)
    (calls : List (Clause × Clause)) :
    (st.examineIn (recording infer) config pair).run.run.run calls =
      ((st.examine infer config pair).run,
        calls ++ [pair.map ProofTree.clause ProofTree.clause]) := by
  rw [examine, examineIn]
  unfold recording
  cases infer pair.1.clause pair.2.clause with
  | none => rfl
  | some r =>
    obtain ⟨inferences, fault⟩ := r
    cases fault <;> rfl

/-- The pairs of a round are handed to the rule in their order, all of them if none of them ends the
search. -/
theorem run_foldlM_examineIn (infer : Clause → Clause → Budgeted Resolution) (config : Config)
    (todo : List (ProofTree × ProofTree)) (st : Search) (calls : List (Clause × Clause)) :
    ∃ more,
      (todo.foldlM (examineIn (recording infer) config) st).run.run.run calls =
        ((todo.foldlM (examine infer config) st).run, calls ++ more) ∧
      ∀ st', (todo.foldlM (examine infer config) st).run = some (.ok st') →
        more = todo.map (Prod.map ProofTree.clause ProofTree.clause) := by
  induction todo generalizing st calls with
  | nil => exact ⟨[], by rw [List.append_nil]; rfl, fun _ _ ↦ rfl⟩
  | cons pair todo ih =>
    rw [List.foldlM_cons, List.foldlM_cons, run_bind_recorded, run_examineIn, ExceptT.run_bind]
    cases (st.examine infer config pair).run with
    | none => exact ⟨_, rfl, fun _ h ↦ nomatch h⟩
    | some r =>
      obtain report | st₁ := r
      · exact ⟨_, rfl, fun _ h ↦ nomatch h⟩
      · obtain ⟨more, hrun, hall⟩ := ih st₁ (calls ++ [pair.map ProofTree.clause ProofTree.clause])
        refine ⟨pair.map ProofTree.clause ProofTree.clause :: more, hrun.trans ?_,
          fun st' hst' ↦ ?_⟩
        · rw [List.append_assoc]
          rfl
        · rw [hall st' hst', List.map_cons]

/-- A round hands its new pairs to the rule, all of them if none of them ends the search. -/
theorem run_roundIn (infer : Clause → Clause → Budgeted Resolution) (config : Config)
    (st : Search) (calls : List (Clause × Clause)) : ∃ more,
      (st.roundIn (recording infer) config).run.run.run calls =
        ((st.round infer config).run, calls ++ more) ∧
      ∀ st₁ st₂, st.begin config = .ok st₁ →
        ((newPairs st₁.settled st₁.recent).foldlM (examine infer config) st₁).run =
          some (.ok st₂) →
        more = newPairs (st₁.settled.map ProofTree.clause) (st₁.recent.map ProofTree.clause) := by
  rw [roundIn, round_run]
  cases hb : st.begin config with
  | error report => exact ⟨[], by rw [List.append_nil]; rfl, fun _ _ h ↦ nomatch h⟩
  | ok st₁ =>
    obtain ⟨more, hrun, hall⟩ := run_foldlM_examineIn infer config
      (newPairs st₁.settled st₁.recent) st₁ calls
    refine ⟨more, ?_, ?_⟩
    · show StateT.run ((newPairs st₁.settled st₁.recent).foldlM
        (examineIn (recording infer) config) st₁ >>= _).run.run calls = _
      rw [run_bind_recorded, hrun]
      dsimp only
      cases ((newPairs st₁.settled st₁.recent).foldlM (examine infer config) st₁).run with
      | none => rfl
      | some r =>
        obtain report | st₂ := r
        · rfl
        · show StateT.run (OptionT.run (ExceptT.run (liftM (st₂.finish config)))) _ = _
          simp only [Option.map_some, Except.bind]
          cases st₂.finish config <;> rfl
    · rintro _ st₂ ⟨⟩ hfold
      rw [hall st₂ hfold, map_newPairs]

/-! ### Recorded runs -/

/-- When the pairs of a round have been handed to the rule after those of the settled clauses, those
of all known clauses have been. -/
theorem calls_of_round {st₁ st₂ : Search} (hb : st.begin config = .ok st₁)
    (hfold : ((newPairs st₁.settled st₁.recent).foldlM (examine infer config) st₁).run =
      some (.ok st₂)) :
    newPairs [] (st.settled.map ProofTree.clause) ++
        newPairs (st₁.settled.map ProofTree.clause) (st₁.recent.map ProofTree.clause) =
      newPairs [] (st₂.known.map ProofTree.clause) := by
  rw [known_of_foldlM hfold, known, List.map_append, newPairs_append, List.nil_append]
  obtain ⟨-, rfl⟩ := begin_eq_ok_iff.1 hb
  rfl

/-- Recording does not change the answer, and when a run that has recorded the pairs of its settled
clauses saturates, it has recorded those of all its known clauses. -/
theorem run_saturateIn (hst : Ready infer config clauses st) : ∃ calls,
    (saturateIn (recording infer) config n st).run.run
        (newPairs [] (st.settled.map ProofTree.clause)) = (saturate infer config n st, calls) ∧
      ∀ report k stats, saturate infer config n st = some report →
        report.result = .ok (.saturated k stats) →
        ∃ st', Reached infer config clauses st' [] ∧ st'.finish config = .error report ∧
          calls = newPairs [] (st'.known.map ProofTree.clause) := by
  induction n generalizing st with
  | zero => exact ⟨_, rfl, by rintro _ _ _ ⟨⟩⟩
  | succ n ih =>
    obtain ⟨more, hrun, hall⟩ := run_roundIn infer config st
      (newPairs [] (st.settled.map ProofTree.clause))
    rw [saturateIn, saturate, OptionT.run_bind, Option.elimM, StateT.run_bind, hrun]
    cases hround : (st.round infer config).run with
    | none => exact ⟨_, rfl, by rintro _ _ _ ⟨⟩⟩
    | some r =>
      obtain report | st' := r
      · refine ⟨_, rfl, ?_⟩
        rintro _ k stats ⟨⟩ hresult
        -- the round that ends in saturation has examined all its pairs
        obtain hb | ⟨st₁, hb, hfold | ⟨st₂, hfold, hf⟩⟩ := round_eq_error hround
        · obtain ⟨_, _, hlimit⟩ := begin_eq_error hb
          rw [hlimit] at hresult
          cases hresult
        · obtain ⟨st₂, pair, rest, -, he⟩ := (hst.begin hb).exists_examine_error hfold
          exact absurd hresult (ne_saturated_of_examine he)
        · refine ⟨st₂, (hst.begin hb).of_foldlM hfold, hf, ?_⟩
          rw [hall st₁ st₂ hb hfold, calls_of_round hb hfold]
      · obtain ⟨st₁, st₂, hb, hfold, hf⟩ := round_eq_ok hround
        obtain ⟨calls, hrest, hend⟩ := ih (hst.round hround)
        obtain ⟨-, -, rfl⟩ := finish_eq_ok_iff.1 hf
        refine ⟨calls, ?_, hend⟩
        rw [hall st₁ st₂ hb hfold, calls_of_round hb hfold]
        exact hrest

/-! ### Counts -/

/-- What a search has counted is what it has done and logged. -/
structure Counted (st : Search) (todo : List (ProofTree × ProofTree)) : Prop where
  /-- With those left in this round, as many pairs as the known clauses have. -/
  pairs : st.stats.pairsExamined + todo.length = (newPairs [] st.known).length
  /-- With the tautologies, as many resolvents as inferences. -/
  resolvents : st.events.toList.countP Event.isResolvent + st.stats.tautologiesRemoved =
    st.stats.resolventsGenerated

/-- Each step counts one pair and one event for each inference that it does not drop. -/
theorem Reached.counted (h : Reached infer config clauses st todo) : st.Counted todo := by
  induction h with
  | start hempty hb =>
    obtain ⟨-, rfl⟩ := begin_eq_ok_iff.1 hb
    exact ⟨Nat.zero_add _, rfl⟩
  | @examine st st' pair todo _ he ih =>
    obtain ⟨r, -, -, hfold⟩ := examine_eq_ok he
    obtain ⟨-, rfl⟩ := foldlM_absorb_eq_ok r.nodup_resolvents hfold
    have hpairs : st.stats.pairsExamined + (todo.length + 1) = (newPairs [] st.known).length :=
      ih.pairs
    have hevents := r.countP_events
    have hresolvents := ih.resolvents
    constructor
    · show st.stats.pairsExamined + 1 + todo.length = (newPairs [] st.known).length
      omega
    · show (st.events ++ r.events).toList.countP Event.isResolvent +
        (st.stats.tautologiesRemoved + r.tautologies) =
          st.stats.resolventsGenerated + r.inferences.length
      rw [Array.toList_appendList, List.countP_append]
      omega
  | @next st st₁ st₂ _ hf hb ih =>
    obtain ⟨-, -, rfl⟩ := finish_eq_ok_iff.1 hf
    obtain ⟨-, rfl⟩ := begin_eq_ok_iff.1 hb
    have hpairs : st.stats.pairsExamined = (newPairs [] st.known).length := ih.pairs
    constructor
    · show st.stats.pairsExamined + (newPairs st.known st.fresh).length =
        (newPairs [] (st.known ++ st.fresh)).length
      rw [newPairs_append, List.length_append, List.nil_append, hpairs]
    · show (st.events.push _).toList.countP Event.isResolvent + _ = _
      rw [Array.toList_push, List.countP_append]
      exact ih.resolvents

/-- When no pair is left and nothing is fresh, the resolvents of two known clauses are known. -/
theorem Consistent.exists_resolvents (h : Consistent (resolve n) config clauses st [])
    (hfresh : st.fresh = []) {c d : Clause}
    (hcd : (c, d) ∈ orderedPairs (st.known.map ProofTree.clause)) :
    ∃ cs, resolvents n c d = some (.ok cs) ∧
      ∀ e ∈ cs, e ≠ ∅ ∧ e ∈ st.known.map ProofTree.clause := by
  rw [← map_orderedPairs] at hcd
  obtain ⟨pair, hpair, heq⟩ := List.mem_map.1 hcd
  cases heq
  obtain ⟨r, hr, hfault, hsub⟩ := (h.resolved pair hpair).resolve_left List.not_mem_nil
  refine ⟨r.resolvents, resolvents_of_resolve hr hfault, fun e he ↦ ?_⟩
  obtain ⟨t, ht, rfl⟩ := List.mem_map.1 (hsub he)
  exact ⟨h.ne_empty t ht, List.mem_map_of_mem (trees_of_fresh hfresh ▸ ht)⟩

end Search

/-! ### Saturated searches -/

/-- Recording does not change the answer of a search, and a saturated search has recorded the pairs
of all clauses it knows. -/
theorem run_refuteIn (infer : Clause → Clause → Budgeted Resolution) (config : Config) (n : Nat)
    (clauses : List Clause) : ∃ calls,
    (refuteIn (recording infer) config n clauses).run.run [] =
        (refuteWith infer config n clauses, calls) ∧
      ∀ report k stats, refuteWith infer config n clauses = some report →
        report.result = .ok (.saturated k stats) →
        ∃ st, Search.Reached infer config clauses st [] ∧ st.finish config = .error report ∧
          calls = newPairs [] (st.known.map ProofTree.clause) := by
  cases hempty : clauses.any Clause.isEmpty with
  | true =>
    refine ⟨[], ?_, ?_⟩
    · simp only [refuteIn, refuteWith, hempty, if_true]
      rfl
    · simp only [refuteWith, hempty, if_true]
      rintro _ k stats ⟨⟩ ⟨⟩
  | false =>
    simp only [refuteIn, refuteWith, hempty, Bool.false_eq_true, if_false]
    exact Search.run_saturateIn (.start hempty)

/-- **A saturated search has resolved every pair once.** It knows distinct clauses, the given ones
among them. Of two of them, the earlier and the later one were handed to the rule in this order,
exactly once, and nothing else was; all that came of it is known and not empty. So many pairs were
counted, and every inference was counted that was told or dropped. -/
theorem exists_calls_of_saturated (h : refute n config clauses = some report)
    (hresult : report.result = .ok (.saturated k stats)) :
    ∃ (st : Search) (known : List Clause) (calls : List (Clause × Clause)),
      (Search.Reached (resolve n) config clauses st [] ∧ st.finish config = .error report ∧
        known = st.known.map ProofTree.clause) ∧
      (refuteIn (recording (resolve n)) config n clauses).run.run [] = (some report, calls) ∧
      known.Nodup ∧ known.length = k ∧ clauses ⊆ known ∧
      (∀ c ∈ known, ∀ d ∈ known, c ≠ d → calls.count (c, d) + calls.count (d, c) = 1) ∧
      (∀ c d, (c, d) ∈ calls → [c, d].Sublist known ∧
        ∃ cs, resolvents n c d = some (.ok cs) ∧ ∀ e ∈ cs, e ≠ ∅ ∧ e ∈ known) ∧
      stats.pairsExamined = k * (k - 1) / 2 ∧
      report.events.toList.countP Event.isResolvent + stats.tautologiesRemoved =
        stats.resolventsGenerated := by
  obtain ⟨calls, hrun, hend⟩ := run_refuteIn (resolve n) config n clauses
  obtain ⟨st, hreach, hf, rfl⟩ := hend report k stats h hresult
  have hcons := hreach.consistent
  have hcount := hreach.counted
  obtain ⟨hfresh, rfl⟩ | ⟨-, -, rfl⟩ := Search.finish_eq_error_iff.1 hf
  · cases hresult
    have hnodup : (st.known.map ProofTree.clause).Nodup :=
      Search.trees_of_fresh hfresh ▸ hcons.nodup
    have hperm := newPairs_nil_perm (st.known.map ProofTree.clause)
    refine ⟨st, _, _, ⟨hreach, hf, rfl⟩, hrun.trans (congrArg (·, _) h), hnodup,
      List.length_map .., ?_, ?_, ?_, ?_, ?_⟩
    · exact fun c hc ↦ List.mem_map.2 ⟨_, hcons.given c hc, rfl⟩
    · intro c hc d hd hcd
      rw [hperm.count_eq, hperm.count_eq]
      exact count_orderedPairs_add hnodup hc hd hcd
    · intro c d hcd
      have hmem := hperm.mem_iff.1 hcd
      exact ⟨sublist_of_mem_orderedPairs hmem, hcons.exists_resolvents hfresh hmem⟩
    · show st.stats.pairsExamined = _
      have hpairs : st.stats.pairsExamined = (newPairs [] st.known).length := hcount.pairs
      rw [hpairs, (newPairs_nil_perm st.known).length_eq, length_orderedPairs, Nat.choose_two_right]
      rfl
    · show (st.events.push _).toList.countP Event.isResolvent + _ = _
      rw [Array.toList_push, List.countP_append]
      exact hcount.resolvents
  · cases hresult

/-- The clauses `p(a)`, `¬p(x) ∨ q(x)` and `¬q(x) ∨ r(x)` saturate in three rounds. Six clauses are
known then, whose 15 pairs were resolved. -/
theorem exists_calls_of_saturated_chain :
    let clauses := [.ofLists [.app "p" [.const (.symbol "a")]] [],
      .ofLists [.app "q" [.var "x" 0]] [.app "p" [.var "x" 0]],
      .ofLists [.app "r" [.var "x" 0]] [.app "q" [.var "x" 0]]]
    ∃ report stats known calls, refute 3 {} clauses = some report ∧
      report.result = .ok (.saturated 6 stats) ∧ stats.rounds = 3 ∧ stats.pairsExamined = 15 ∧
      (refuteIn (recording (resolve 3)) {} 3 clauses).run.run [] = (some report, calls) ∧
      known.length = 6 ∧ clauses ⊆ known ∧
      ∀ c ∈ known, ∀ d ∈ known, c ≠ d → calls.count (c, d) + calls.count (d, c) = 1 := by
  intro clauses
  have hrun : ((refute 3 {} clauses).bind fun report ↦
      match report.result with
      | .ok (.saturated k stats) => some (k, stats.rounds)
      | _ => none) = some (6, 3) := by decide +kernel
  obtain ⟨report, h, hrun⟩ := Option.bind_eq_some_iff.1 hrun
  split at hrun
  · rename_i k stats hresult
    obtain ⟨rfl, hrounds⟩ := Prod.mk.inj (Option.some.inj hrun)
    obtain ⟨st, known, calls, -, hcalls, -, hlength, hsub, honce, -, hpairs, -⟩ :=
      exists_calls_of_saturated h hresult
    exact ⟨report, stats, known, calls, h, hresult, hrounds, hpairs, hcalls, hlength, hsub, honce⟩
  · cases hrun

end OffsetLogic
