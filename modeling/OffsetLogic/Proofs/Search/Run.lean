import OffsetLogic.Proofs.Resolution.Inference
import OffsetLogic.Saturation

/-!
# Runs of a search

A search is a loop over rounds around a loop over pairs. Here it is taken apart into **steps**:
`Reached st todo` says that the run has come to the state `st` with the pairs `todo` of the current
round still to be examined, `Ready st` that it is between two rounds, and `Ended report` that it
stopped with `report`. Whatever a search answers, it answers by one of the endings
(`ended_of_refuteWith`), so a property of a search is proved in two parts: what a step keeps, and
what an ending reads off the state before it.

**Steps are inverted once.** What examining a pair, absorbing a resolvent, beginning a round and
finishing it can do is said by `examine_eq_ok`, `absorb_eq_ok_iff`, `begin_eq_ok_iff`,
`finish_eq_ok_iff` and their companions for errors, and for a whole round by `round_eq_ok` and
`round_eq_error`; nothing below unfolds these operations again.

## Why relations, and not the loop

The loop is a recursion on the budget, and the budget is spent by rounds. A statement about the
state in the middle of a round would have to speak of a fold that was cut in two. In the relations
the pairs that are left are an index, so the invariant of a run can mention them, and the budget
does not occur. A run that is never answered has reached states nevertheless: they are those of its
finished steps, and what is said of them needs no answer.

## The rule is a parameter

Nothing here depends on how two clauses are resolved. The same relations serve the search by
resolution on any budget, the one that keeps tautologies, and runs in which the rule is only known
to be closed in some set of clauses.

## Two lists of pairs

`orderedPairs` are all pairs of a list, the earlier member first, and `newPairs` those that a round
examines. A round adds to the pairs of the settled clauses exactly what they lack to the pairs of
all known clauses (`orderedPairs_append_perm`, `newPairs_append`); the order in which the rounds go
through them is not that of `orderedPairs`, so the statement is one about permutations.
-/

namespace OffsetLogic

/-! ### Folds that can fail -/

section Fold

variable {α σ ε : Type} {f : σ → α → Except ε σ} {l : List α} {s s' : σ}

/-- A fold that fails does so at one of its items, where the invariant still holds. -/
theorem foldlM_error_induction {I : List α → σ → Prop} {e : ε} (h : l.foldlM f s = .error e)
    (base : I l s) (step : ∀ a rest s s', I (a :: rest) s → f s a = .ok s' → I rest s') :
    ∃ a rest s₁, I (a :: rest) s₁ ∧ f s₁ a = .error e := by
  induction l generalizing s with
  | nil => cases h
  | cons a l ih =>
    rw [List.foldlM_cons] at h
    cases hs : f s a with
    | error e' =>
      rw [hs] at h
      cases h
      exact ⟨a, l, s, base, hs⟩
    | ok s₁ =>
      rw [hs] at h
      exact ih h (step a l s s₁ base hs)

end Fold

/-! ### New pairs -/

section Pairs

variable {α : Type}

/-- With one more item, a list has the pairs of that item with the others besides. -/
theorem orderedPairs_concat_perm (l : List α) (a : α) :
    (orderedPairs (l ++ [a])).Perm (orderedPairs l ++ l.map (·, a)) := by
  induction l with
  | nil => exact .refl _
  | cons b l ih =>
    simp only [List.cons_append, orderedPairs, List.map_append, List.map_cons, List.map_nil,
      List.append_assoc, List.nil_append]
    exact .append_left _ ((ih.cons _).trans List.perm_middle.symm)

/-- The pairs of a list in two parts are those of the first part and the new ones. -/
theorem orderedPairs_append_perm (settled recent : List α) :
    (orderedPairs (settled ++ recent)).Perm (orderedPairs settled ++ newPairs settled recent) := by
  induction recent generalizing settled with
  | nil => simp [newPairs]
  | cons a recent ih =>
    rw [List.append_cons, newPairs, ← List.append_assoc]
    exact (ih _).trans (.append_right _ (orderedPairs_concat_perm settled a))

theorem mem_orderedPairs_append {settled recent : List α} {e : α × α} :
    e ∈ orderedPairs (settled ++ recent) ↔
      e ∈ orderedPairs settled ∨ e ∈ newPairs settled recent :=
  (orderedPairs_append_perm settled recent).mem_iff.trans List.mem_append

/-- The pairs of a list, each member with every earlier one, are its pairs in another order. -/
theorem newPairs_nil_perm (l : List α) : (newPairs [] l).Perm (orderedPairs l) :=
  (orderedPairs_append_perm [] l).symm

/-- Where a list is in two parts, its pairs are those of the first part, and then the new ones. -/
theorem newPairs_append (before settled recent : List α) :
    newPairs before (settled ++ recent) =
      newPairs before settled ++ newPairs (before ++ settled) recent := by
  induction settled generalizing before with
  | nil => simp [newPairs]
  | cons a settled ih => simp [newPairs, ih]

/-- The new pairs depend on the positions of clauses only, so they commute with any map. -/
theorem map_newPairs {β : Type} (f : α → β) (settled recent : List α) :
    (newPairs settled recent).map (Prod.map f f) = newPairs (settled.map f) (recent.map f) := by
  induction recent generalizing settled with
  | nil => rfl
  | cons a recent ih => simp [newPairs, ih, Function.comp_def]

/-- Two different members of a list form a pair in one of the two orders. -/
theorem mem_orderedPairs_or_swap {l : List α} {a b : α} (ha : a ∈ l) (hb : b ∈ l) (hab : a ≠ b) :
    (a, b) ∈ orderedPairs l ∨ (b, a) ∈ orderedPairs l := by
  induction l with
  | nil => cases ha
  | cons c l ih =>
    simp only [orderedPairs, List.mem_append, List.mem_map, Prod.mk.injEq]
    rcases List.mem_cons.1 ha with rfl | ha'
    · rcases List.mem_cons.1 hb with rfl | hb'
      · exact absurd rfl hab
      · exact .inl (.inl ⟨b, hb', rfl, rfl⟩)
    · rcases List.mem_cons.1 hb with rfl | hb'
      · exact .inr (.inl ⟨a, ha', rfl, rfl⟩)
      · exact (ih ha' hb').imp .inr .inr

end Pairs

namespace Search

variable {infer : Clause → Clause → Budgeted Resolution} {config : Config}
variable {clauses : List Clause} {st st' : Search} {pair : ProofTree × ProofTree}
variable {todo : List (ProofTree × ProofTree)} {report : Report}

/-! ### What a step can do -/

/-- The clauses of a search with their trees, those found in this round last. -/
def trees (st : Search) : List ProofTree := st.known ++ st.fresh

theorem known_subset_trees (st : Search) : st.known ⊆ st.trees := List.subset_append_left _ _

theorem trees_of_fresh (h : st.fresh = []) : st.trees = st.known := by
  rw [trees, h, List.append_nil]

/-- The test goes through the three parts of a search one by one, and says whether the clause is
anywhere in it. -/
theorem contains_iff {c : Clause} : st.contains c = true ↔ c ∈ st.trees.map ProofTree.clause := by
  simp only [contains, trees, known, Bool.or_eq_true, List.any_eq_true, decide_eq_true_eq,
    List.map_append, List.mem_append, List.mem_map]

/-- The tree under which a resolvent of `l` and `r` is kept. -/
def node (config : Config) (l r : ProofTree) (c : Clause) : ProofTree :=
  if config.recordDerivation then .resolved l r c else .given c

@[simp] theorem clause_node (l r : ProofTree) (c : Clause) : (node config l r c).clause = c := by
  unfold node
  split <;> rfl

/-- A resolvent that does not end the search is not empty, and it is known or becomes so. -/
theorem absorb_eq_ok_iff {l r : ProofTree} {c : Clause} :
    absorb config l r st c = .ok st' ↔
      c ≠ ∅ ∧ (st.contains c = true ∧ st' = st ∨
        st.contains c = false ∧ st' = { st with fresh := st.fresh ++ [node config l r c] }) := by
  rw [absorb, ne_eq, ← Clause.isEmpty_iff, node]
  cases c.isEmpty <;> cases st.contains c <;> simp [eq_comm (b := st')]

/-- A resolvent ends the search when it is empty, whether it is known or not; the search is refuted
then, and its count includes what the round has found. -/
theorem absorb_eq_error_iff {l r : ProofTree} {c : Clause} :
    absorb config l r st c = .error report ↔
      c = ∅ ∧ report = (st.log (.contradiction st.stats.rounds)).refutedBy
        (ProofTree.refutation l r) (st.known.length + st.fresh.length) := by
  rw [absorb, ← Clause.isEmpty_iff]
  cases c.isEmpty <;> cases st.contains c <;> simp [eq_comm (b := report)]

/-- A round that begins is within the limit of rounds and has counted itself. -/
theorem begin_eq_ok_iff :
    st.begin config = .ok st' ↔
      Config.exceeds (st.stats.rounds + 1) config.maxRounds = false ∧
        st' = { st with stats := { st.stats with rounds := st.stats.rounds + 1 } } := by
  simp only [begin]
  cases Config.exceeds (st.stats.rounds + 1) config.maxRounds <;> simp [eq_comm]

/-- A round that does not begin is the first one beyond the limit. It has counted itself all the
same, and so the report has one round more than were finished. -/
theorem begin_eq_error_iff :
    st.begin config = .error report ↔
      Config.exceeds (st.stats.rounds + 1) config.maxRounds = true ∧
        report = ({ st with stats := { st.stats with rounds := st.stats.rounds + 1 } } :
          Search).limitReport := by
  simp only [begin]
  cases Config.exceeds (st.stats.rounds + 1) config.maxRounds <;> simp [eq_comm]

theorem begin_eq_error (h : st.begin config = .error report) :
    ∃ rounds clauses, report.result = .error (.limit rounds clauses) := by
  obtain ⟨-, rfl⟩ := begin_eq_error_iff.1 h
  exact ⟨_, _, rfl⟩

/-- The search whose round is over and has made known what it found. -/
def advance (st : Search) : Search :=
  { st.log (.roundFinished st.stats.rounds st.known.length st.fresh.length) with
    settled := st.known, recent := st.fresh, fresh := [] }

@[simp] theorem known_advance (st : Search) : st.advance.known = st.trees := rfl

@[simp] theorem trees_advance (st : Search) : st.advance.trees = st.trees := List.append_nil _

/-- A round that goes on has found something, and that becomes known. -/
theorem finish_eq_ok_iff :
    st.finish config = .ok st' ↔
      st.fresh ≠ [] ∧ Config.exceeds st.trees.length config.maxClauses = false ∧
        st' = st.advance := by
  show (if st.fresh.isEmpty then Except.error _ else
    if Config.exceeds st.trees.length config.maxClauses then .error st.advance.limitReport
    else .ok st.advance) = _ ↔ _
  rw [ne_eq, ← List.isEmpty_iff]
  cases st.fresh.isEmpty <;> cases Config.exceeds st.trees.length config.maxClauses <;>
    simp [eq_comm]

/-- A round ends the search when it has found nothing, and then the limit of clauses is not looked
at; or when what it found brings the known clauses beyond that limit. -/
theorem finish_eq_error_iff :
    st.finish config = .error report ↔
      st.fresh = [] ∧ report = (st.log
          (.roundFinished st.stats.rounds st.known.length st.fresh.length)).saturatedReport ∨
        st.fresh ≠ [] ∧ Config.exceeds st.trees.length config.maxClauses = true ∧
          report = st.advance.limitReport := by
  show (if st.fresh.isEmpty then Except.error _ else
    if Config.exceeds st.trees.length config.maxClauses then .error st.advance.limitReport
    else .ok st.advance) = _ ↔ _
  rw [ne_eq, ← List.isEmpty_iff]
  cases st.fresh.isEmpty <;> cases Config.exceeds st.trees.length config.maxClauses <;>
    simp [eq_comm]

/-- A round ends the search because it found nothing, or at a limit. -/
theorem finish_eq_error (h : st.finish config = .error report) :
    st.fresh = [] ∧ (∃ stats, report.result = .ok (.saturated st.known.length stats)) ∨
      ∃ rounds clauses, report.result = .error (.limit rounds clauses) := by
  obtain ⟨hfresh, rfl⟩ | ⟨-, -, rfl⟩ := finish_eq_error_iff.1 h
  · exact .inl ⟨hfresh, _, rfl⟩
  · exact .inr ⟨_, _, rfl⟩

/-- The rule answers first. An error of its is reported after what came before it was counted, and
before any resolvent is absorbed. -/
theorem examine_run (st : Search) (pair : ProofTree × ProofTree) :
    (st.examine infer config pair).run =
      (infer pair.1.clause pair.2.clause).map fun r ↦
        match r.fault with
        | some e => .error ((st.record r).faultReport e)
        | none => r.resolvents.foldlM (absorb config pair.1 pair.2) (st.record r) := by
  rw [examine]
  cases infer pair.1.clause pair.2.clause with
  | none => rfl
  | some r =>
    obtain ⟨inferences, fault⟩ := r
    cases fault <;> rfl

/-- A pair that does not end the search was resolved without an error, and all its resolvents were
absorbed. -/
theorem examine_eq_ok (h : (st.examine infer config pair).run = some (.ok st')) :
    ∃ r, infer pair.1.clause pair.2.clause = some r ∧ r.fault = none ∧
      r.resolvents.foldlM (absorb config pair.1 pair.2) (st.record r) = .ok st' := by
  rw [examine_run] at h
  obtain ⟨r, hr, h⟩ := Option.map_eq_some_iff.1 h
  cases hf : r.fault with
  | none => exact ⟨r, hr, hf, by rwa [hf] at h⟩
  | some e =>
    rw [hf] at h
    cases h

/-- A pair ends the search by an error of the rule, or by a resolvent. -/
theorem examine_eq_error (h : (st.examine infer config pair).run = some (.error report)) :
    ∃ r, infer pair.1.clause pair.2.clause = some r ∧
      ((∃ e, r.fault = some e ∧ report = (st.record r).faultReport e) ∨
        r.fault = none ∧
          r.resolvents.foldlM (absorb config pair.1 pair.2) (st.record r) = .error report) := by
  rw [examine_run] at h
  obtain ⟨r, hr, h⟩ := Option.map_eq_some_iff.1 h
  cases hf : r.fault with
  | none => exact ⟨r, hr, .inr ⟨hf, by rwa [hf] at h⟩⟩
  | some e =>
    rw [hf] at h
    cases h
    exact ⟨r, hr, .inl ⟨e, hf, rfl⟩⟩

/-- What examining a pair leaves as it was, examining the pairs of a round does, too. -/
theorem eq_of_foldlM {α : Type} {f : Search → α}
    (hf : ∀ {st st' pair}, (st.examine infer config pair).run = some (.ok st') → f st' = f st)
    (h : (todo.foldlM (Search.examine infer config) st).run = some (.ok st')) : f st' = f st := by
  induction todo generalizing st with
  | nil =>
    cases h
    rfl
  | cons pair todo ih =>
    rw [List.foldlM_cons, ExceptT.run_bind] at h
    obtain ⟨r, hr, h⟩ := Option.bind_eq_some_iff.1 h
    obtain report | st₁ := r
    · cases h
    · exact (ih h).trans (hf hr)

/-- A round without its binds. The fold over the pairs is the only part that asks for a budget. -/
theorem round_run (st : Search) :
    (st.round infer config).run =
      match st.begin config with
      | .error report => some (.error report)
      | .ok st =>
        ((newPairs st.settled st.recent).foldlM (examine infer config) st).run.map
          (·.bind (finish config)) := by
  rw [round]
  cases st.begin config with
  | error report => rfl
  | ok st =>
    show ExceptT.run ((newPairs st.settled st.recent).foldlM (examine infer config) st >>= _) = _
    rw [ExceptT.run_bind]
    dsimp only
    cases ((newPairs st.settled st.recent).foldlM (examine infer config) st).run with
    | none => rfl
    | some r => cases r <;> rfl

/-- A round that goes on began, examined its pairs and was finished. -/
theorem round_eq_ok (h : (st.round infer config).run = some (.ok st')) :
    ∃ st₁ st₂, st.begin config = .ok st₁ ∧
      ((newPairs st₁.settled st₁.recent).foldlM (Search.examine infer config) st₁).run =
        some (.ok st₂) ∧ st₂.finish config = .ok st' := by
  rw [round_run] at h
  cases hb : st.begin config with
  | error report =>
    rw [hb] at h
    cases h
  | ok st₁ =>
    rw [hb] at h
    obtain ⟨r, hr, h⟩ := Option.map_eq_some_iff.1 h
    obtain report | st₂ := r
    · cases h
    · exact ⟨st₁, st₂, rfl, hr, h⟩

/-- A round ends the search where it begins, at one of its pairs, or where it is finished. -/
theorem round_eq_error (h : (st.round infer config).run = some (.error report)) :
    st.begin config = .error report ∨ ∃ st₁, st.begin config = .ok st₁ ∧
      (((newPairs st₁.settled st₁.recent).foldlM (Search.examine infer config) st₁).run =
          some (.error report) ∨
        ∃ st₂, ((newPairs st₁.settled st₁.recent).foldlM (Search.examine infer config) st₁).run =
          some (.ok st₂) ∧ st₂.finish config = .error report) := by
  rw [round_run] at h
  cases hb : st.begin config with
  | error report' =>
    rw [hb] at h
    cases h
    exact .inl rfl
  | ok st₁ =>
    rw [hb] at h
    obtain ⟨r, hr, h⟩ := Option.map_eq_some_iff.1 h
    obtain report' | st₂ := r
    · cases h
      exact .inr ⟨st₁, rfl, .inl hr⟩
    · exact .inr ⟨st₁, rfl, .inr ⟨st₂, hr, h⟩⟩

/-- Rounds end with the next one, or go on with those after it. -/
theorem saturate_succ_eq_some_iff {n : Nat} :
    saturate infer config (n + 1) st = some report ↔
      (st.round infer config).run = some (.error report) ∨
        ∃ st', (st.round infer config).run = some (.ok st') ∧
          saturate infer config n st' = some report := by
  constructor
  · intro h
    obtain ⟨r, hr, h⟩ := Option.bind_eq_some_iff.1 h
    obtain report' | st' := r
    · cases h
      exact .inl hr
    · exact .inr ⟨st', hr, h⟩
  · rintro (h | ⟨st', hround, h⟩)
    · exact Option.bind_eq_some_iff.2 ⟨_, h, rfl⟩
    · exact Option.bind_eq_some_iff.2 ⟨_, hround, h⟩

/-! ### Runs -/

/-- The run on `clauses` comes to the state `st` with the pairs `todo` of its round still to be
examined. -/
inductive Reached (infer : Clause → Clause → Budgeted Resolution) (config : Config)
    (clauses : List Clause) : Search → List (ProofTree × ProofTree) → Prop where
  /-- The first round begins. -/
  | start {st : Search} : clauses.any Clause.isEmpty = false →
      (Search.start clauses).begin config = .ok st →
      Reached infer config clauses st (newPairs st.settled st.recent)
  /-- The next pair is examined. -/
  | examine {st st' : Search} {pair : ProofTree × ProofTree}
      {todo : List (ProofTree × ProofTree)} : Reached infer config clauses st (pair :: todo) →
      (st.examine infer config pair).run = some (.ok st') → Reached infer config clauses st' todo
  /-- A round ends and another one begins. -/
  | next {st st₁ st₂ : Search} : Reached infer config clauses st [] →
      st.finish config = .ok st₁ → st₁.begin config = .ok st₂ →
      Reached infer config clauses st₂ (newPairs st₂.settled st₂.recent)

/-- The run on `clauses` comes to the state `st`, in which its next round is to begin. -/
inductive Ready (infer : Clause → Clause → Budgeted Resolution) (config : Config)
    (clauses : List Clause) : Search → Prop where
  /-- It is the first one. -/
  | start : clauses.any Clause.isEmpty = false → Ready infer config clauses (Search.start clauses)
  /-- A round went before that did not end the run. -/
  | next {st st₁ : Search} : Reached infer config clauses st [] → st.finish config = .ok st₁ →
      Ready infer config clauses st₁

/-- The run on `clauses` stops with a report. -/
inductive Ended (infer : Clause → Clause → Budgeted Resolution) (config : Config)
    (clauses : List Clause) : Report → Prop where
  /-- The empty clause was given. -/
  | emptyInput : clauses.any Clause.isEmpty = true →
      Ended infer config clauses (((Search.start clauses).log .emptyInput).refutedBy ∅
        (Search.start clauses).recent.length)
  /-- Examining a pair ended the run. -/
  | examine {st : Search} {pair : ProofTree × ProofTree} {todo : List (ProofTree × ProofTree)}
      {report : Report} : Reached infer config clauses st (pair :: todo) →
      (st.examine infer config pair).run = some (.error report) → Ended infer config clauses report
  /-- The end of a round ended the run. -/
  | finish {st : Search} {report : Report} : Reached infer config clauses st [] →
      st.finish config = .error report → Ended infer config clauses report
  /-- No further round may begin. -/
  | begin {st : Search} {report : Report} : Ready infer config clauses st →
      st.begin config = .error report → Ended infer config clauses report

/-- A round that begins has all its pairs still to be examined. -/
theorem Ready.begin (h : Ready infer config clauses st) (hb : st.begin config = .ok st') :
    Reached infer config clauses st' (newPairs st'.settled st'.recent) := by
  cases h with
  | start hempty => exact .start hempty hb
  | next hreach hf => exact .next hreach hf hb

/-- Examining the pairs of a round leads to its end. -/
theorem Reached.of_foldlM (h : Reached infer config clauses st todo)
    (hf : (todo.foldlM (Search.examine infer config) st).run = some (.ok st')) :
    Reached infer config clauses st' [] := by
  -- the pairs are examined in the order in which `Reached` has them
  induction todo generalizing st with
  | nil =>
    cases hf
    exact h
  | cons pair todo ih =>
    rw [List.foldlM_cons, ExceptT.run_bind] at hf
    obtain ⟨r, hr, hf⟩ := Option.bind_eq_some_iff.1 hf
    cases r with
    | error report => cases hf
    | ok st₁ => exact ih (h.examine hr) hf

/-- Where the pairs of a round end the search, one of them does. -/
theorem Reached.exists_examine_error (h : Reached infer config clauses st todo)
    (hf : (todo.foldlM (Search.examine infer config) st).run = some (.error report)) :
    ∃ st₁ pair rest, Reached infer config clauses st₁ (pair :: rest) ∧
      (st₁.examine infer config pair).run = some (.error report) := by
  induction todo generalizing st with
  | nil => cases hf
  | cons pair todo ih =>
    rw [List.foldlM_cons, ExceptT.run_bind] at hf
    obtain ⟨r, hr, hf⟩ := Option.bind_eq_some_iff.1 hf
    cases r with
    | error report' =>
      cases hf
      exact ⟨st, pair, todo, h, hr⟩
    | ok st₁ => exact ih (h.examine hr) hf

/-- Between two rounds, a round that does not end the search leads there again. -/
theorem Ready.round (h : Ready infer config clauses st)
    (hround : (st.round infer config).run = some (.ok st')) : Ready infer config clauses st' := by
  obtain ⟨st₁, st₂, hb, hfold, hf⟩ := round_eq_ok hround
  exact .next ((h.begin hb).of_foldlM hfold) hf

/-- An ending of a round is an ending of the run. -/
theorem Ready.ended (h : Ready infer config clauses st)
    (hround : (st.round infer config).run = some (.error report)) :
    Ended infer config clauses report := by
  obtain hb | ⟨st₁, hb, hfold | ⟨st₂, hfold, hf⟩⟩ := round_eq_error hround
  · exact .begin h hb
  · obtain ⟨st₂, pair, rest, hreach, he⟩ := (h.begin hb).exists_examine_error hfold
    exact .examine hreach he
  · exact .finish ((h.begin hb).of_foldlM hfold) hf

/-- Rounds that begin where the run can come to an end lead to an ending of the run. -/
theorem ended_of_saturate {n : Nat} (hst : Ready infer config clauses st)
    (h : saturate infer config n st = some report) : Ended infer config clauses report := by
  induction n generalizing st with
  | zero => cases h
  | succ n ih =>
    obtain hround | ⟨st', hround, h⟩ := saturate_succ_eq_some_iff.1 h
    · exact hst.ended hround
    · exact ih (hst.round hround) h

/-- Every answer of a search is an ending of its run. -/
theorem ended_of_refuteWith {n : Nat} (h : refuteWith infer config n clauses = some report) :
    Ended infer config clauses report := by
  unfold refuteWith at h
  split at h
  · rename_i hempty
    cases h
    exact .emptyInput hempty
  · rename_i hempty
    exact ended_of_saturate (.start (by simpa using hempty)) h

end Search

end OffsetLogic
