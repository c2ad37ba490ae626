import OffsetLogic.KnowledgeBase
import OffsetLogic.Proofs.Search.Run

/-!
# Answers do not depend on the budget

A budget decides whether there is an answer, not which one. `Budgeted.Le x y` says that `y` answers
whatever `x` answers. Every stage of a search is a sequence of bindings of earlier stages, so each
is monotone in the budget because `Budgeted.Le.bind` is; the results are `resolve_le`, `refute_le`
and, for queries, `KnowledgeBase.ask_le`.

**One lemma for each way to combine computations, one for each stage.** A stage that is a fold, a
search through a list or a test of some member is monotone because the folds are (`foldlM`,
`findSomeM?`, `anyM`), and these are by induction on the list. Only unification is looked at by
itself, where the budget is a depth (`unify_eq_some_of_le`).

From monotonicity follows uniqueness: two answers, on whatever budgets, are both the answer on the
larger of them (`Budgeted.Le.unique`). So one may speak of *the* report of a search, and
`refute_unique` is cited wherever a statement about some budget is to hold of all. It also turns an
answer into a statement about all large budgets, and statements about searches that end are worded
in this way.

A computation with errors is a computation whose results include errors. Monotonicity says nothing
different about these: an error that is reported on one budget is the error on all larger ones.
-/

namespace OffsetLogic

/-- Whatever the first computation answers, the second answers too. -/
def Budgeted.Le {α : Type} (x y : Budgeted α) : Prop := ∀ a, x = some a → y = some a

namespace Budgeted.Le

variable {α β : Type} {x y : Budgeted α}

theorem refl (x : Budgeted α) : Le x x := fun _ h ↦ h

/-- When both parts of a sequence answer more, so does the sequence. -/
theorem bind {f g : α → Budgeted β} (hxy : Le x y) (hfg : ∀ a, Le (f a) (g a)) :
    Le (x.bind f) (y.bind g) := by
  intro b hb
  obtain ⟨a, ha, hb⟩ := Option.bind_eq_some_iff.1 hb
  exact Option.bind_eq_some_iff.2 ⟨a, hxy a ha, hfg a b hb⟩

theorem map (f : α → β) (hxy : Le x y) : Le (x.map f) (y.map f) := by
  intro b hb
  obtain ⟨a, ha, rfl⟩ := Option.map_eq_some_iff.1 hb
  rw [hxy a ha]
  rfl

/-- A computation that may fail goes on where it does not. -/
theorem run_bind {ε : Type} {x y : ExceptT ε Budgeted α} {f g : α → ExceptT ε Budgeted β}
    (hxy : Le x.run y.run) (hfg : ∀ a, Le (f a).run (g a).run) :
    Le (x >>= f).run (y >>= g).run := by
  rw [ExceptT.run_bind, ExceptT.run_bind]
  refine hxy.bind fun r ↦ ?_
  obtain e | a := r
  · exact refl _
  · exact hfg a

/-- A fold answers more when its step does, for whatever states the step meets. -/
theorem foldlM {ε σ : Type} {f g : σ → α → ExceptT ε Budgeted σ}
    (hfg : ∀ s a, Le (f s a).run (g s a).run) (l : List α) (s : σ) :
    Le (l.foldlM f s).run (l.foldlM g s).run := by
  induction l generalizing s with
  | nil => exact refl _
  | cons a l ih =>
    rw [List.foldlM_cons, List.foldlM_cons]
    exact run_bind (hfg s a) ih

theorem findSomeM? {ε : Type} {f g : α → ExceptT ε Budgeted (Option β)}
    (hfg : ∀ a, Le (f a).run (g a).run) (l : List α) :
    Le (l.findSomeM? f).run (l.findSomeM? g).run := by
  induction l with
  | nil => exact refl _
  | cons a l ih =>
    rw [List.findSomeM?, List.findSomeM?]
    refine run_bind (hfg a) fun b? ↦ ?_
    cases b? with
    | none => exact ih
    | some b => exact refl _

theorem anyM {f g : α → Budgeted Bool} (hfg : ∀ a, Le (f a) (g a)) (l : List α) :
    Le (l.anyM f) (l.anyM g) := by
  induction l with
  | nil => exact refl _
  | cons a l ih =>
    rw [List.anyM, List.anyM]
    refine (hfg a).bind fun b ↦ ?_
    cases b
    · exact ih
    · exact refl _

/-- A computation that answers more on larger budgets has one answer at most. -/
theorem unique {f : Nat → Budgeted α} (hf : ∀ {m n}, m ≤ n → Le (f m) (f n)) {m n : Nat} {a b : α}
    (ha : f m = some a) (hb : f n = some b) : b = a := by
  have hmax := hf (Nat.le_max_left m n) a ha
  rw [hf (Nat.le_max_right m n) b hb] at hmax
  exact Option.some.inj hmax

end Budgeted.Le

open Budgeted

variable {m n : Nat}

/-! ### Resolution -/

/-- For unification the budget is a depth, which a larger budget does not exhaust either. -/
theorem mgu?_le (hmn : m ≤ n) (a b : Term) : Le (mgu? m a b) (mgu? n a b) :=
  fun _ ↦ unify_eq_some_of_le hmn

/-- Whether two terms unify is read off the unifier. -/
theorem unifiable_le (hmn : m ≤ n) (a b : Term) : Le (unifiable m a b) (unifiable n a b) :=
  (mgu?_le hmn a b).map _

/-- Terms that do not unify within a budget do not unify within another. -/
theorem unifiable_ne_true {a b : Term} (h : unifiable m a b = some false) (n : Nat) :
    unifiable n a b ≠ some true :=
  fun hn ↦ nomatch Budgeted.Le.unique (fun hmn ↦ unifiable_le hmn a b) h hn

namespace Clause

theorem merge?_le (hmn : m ≤ n) (c : Clause) (e : Term × Term) :
    Le (c.merge? m e).run (c.merge? n e).run := by
  rw [merge?_run, merge?_run]
  exact (mgu?_le hmn _ _).bind fun _ ↦ .refl _

/-- The recursion is that of factoring, on the size of the clause: the budget bounds each
unification, and not how often a clause is factored. -/
theorem factor_le (hmn : m ≤ n) (c : Clause) : Le (c.factor m).run (c.factor n).run := by
  rw [factor, factor]
  refine .run_bind (.findSomeM? (c.merge?_le hmn) _) fun d? ↦ ?_
  cases d? with
  | none => exact .refl _
  | some d => exact factor_le hmn d.1
termination_by c.size
decreasing_by exact d.2

/-- The test compares positive literals with negated ones until two of them unify. -/
theorem isTautological_le (hmn : m ≤ n) (c : Clause) :
    Le (c.isTautological m) (c.isTautological n) :=
  .anyM (fun _ ↦ .anyM (fun _ ↦ unifiable_le hmn _ _) _) _

end Clause

/-- An inference is a unification, then factoring and the test, unless an error comes before them.
-/
theorem Clash.infer?_le (hmn : m ≤ n) (k : Clash) : Le (k.infer? m).run (k.infer? n).run := by
  rw [infer?_run, infer?_run]
  refine (mgu?_le hmn _ _).bind fun s? ↦ ?_
  cases s? with
  | none => exact .refl _
  | some s =>
    dsimp only
    split
    · exact .refl _
    · refine (Clause.factor_le hmn _).bind fun r ↦ ?_
      obtain e | d := r
      · exact .refl _
      · exact (Clause.isTautological_le hmn _).map _

/-- By induction on the clashes; an error ends the list on every budget at the same clash. -/
theorem inferFrom_le (hmn : m ≤ n) (ks : List Clash) : Le (inferFrom m ks) (inferFrom n ks) := by
  induction ks with
  | nil => exact .refl _
  | cons k ks ih =>
    rw [inferFrom_cons, inferFrom_cons]
    refine (k.infer?_le hmn).bind fun r ↦ ?_
    obtain e | i? := r
    · exact .refl _
    · cases i? with
      | none => exact ih
      | some i => exact ih.map _

/-- A larger budget resolves two clauses into the same inferences. -/
theorem resolve_le (hmn : m ≤ n) (c d : Clause) : Le (resolve m c d) (resolve n c d) :=
  inferFrom_le hmn _

/-! ### Searches -/

namespace Search

variable {infer infer' : Clause → Clause → Budgeted Resolution}

/-- A pair asks for a budget through its rule only. -/
theorem examine_le (h : ∀ a b, Le (infer a b) (infer' a b)) (config : Config) (st : Search)
    (pair : ProofTree × ProofTree) :
    Le (st.examine infer config pair).run (st.examine infer' config pair).run := by
  rw [examine_run, examine_run]
  exact (h _ _).map _

/-- The limits are tested without a budget, so only the pairs of the round matter. -/
theorem round_le (h : ∀ a b, Le (infer a b) (infer' a b)) (config : Config) (st : Search) :
    Le (st.round infer config).run (st.round infer' config).run := by
  rw [round_run, round_run]
  split
  · exact .refl _
  · exact (Budgeted.Le.foldlM (examine_le h config) _ _).map _

/-- Here the budget bounds the number of rounds as well, and it may grow together with that of the
rule. -/
theorem saturate_le (h : ∀ a b, Le (infer a b) (infer' a b)) (hmn : m ≤ n) (config : Config)
    (st : Search) : Le (saturate infer config m st) (saturate infer' config n st) := by
  induction m generalizing n st with
  | zero => exact fun _ h ↦ nomatch h
  | succ m ih =>
    obtain ⟨n, rfl⟩ : ∃ k, n = k + 1 := ⟨n - 1, by omega⟩
    refine (round_le h config st).bind fun r ↦ ?_
    obtain report | st' := r
    · exact .refl _
    · exact ih (by omega) st'

end Search

theorem refuteWith_le {infer infer' : Clause → Clause → Budgeted Resolution}
    (h : ∀ a b, Le (infer a b) (infer' a b)) (hmn : m ≤ n) (config : Config)
    (clauses : List Clause) :
    Le (refuteWith infer config m clauses) (refuteWith infer' config n clauses) := by
  unfold refuteWith
  dsimp only
  split
  · exact .refl _
  · exact Search.saturate_le h hmn config _

/-- A larger budget does not change the report of a search. -/
theorem refute_le (hmn : m ≤ n) (config : Config) (clauses : List Clause) :
    Le (refute m config clauses) (refute n config clauses) :=
  refuteWith_le (resolve_le hmn) hmn config clauses

/-- There is one report at most, whatever the budget. -/
theorem refute_unique {config : Config} {clauses : List Clause} {report report' : Report}
    (h : refute m config clauses = some report) (h' : refute n config clauses = some report') :
    report' = report :=
  Budgeted.Le.unique (fun hmn ↦ refute_le hmn config clauses) h h'

/-- A larger budget does not change the answer to a query. -/
theorem KnowledgeBase.ask_le (hmn : m ≤ n) (kb : KnowledgeBase) (query : Clause) :
    Le (kb.ask m query) (kb.ask n query) := by
  unfold ask prove
  refine Budgeted.Le.map _ ?_
  split
  · exact .refl _
  · exact (refute_le hmn _ _).bind fun _ ↦ .refl _

end OffsetLogic
