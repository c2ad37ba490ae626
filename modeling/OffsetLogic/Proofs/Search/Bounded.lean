import OffsetLogic.Proofs.Resolution.Total
import OffsetLogic.Proofs.Search.Budget
import OffsetLogic.Proofs.Search.Cap
import OffsetLogic.Proofs.Search.Limits
import OffsetLogic.Proofs.Search.Termination

/-!
# Bounded searches end

Nothing but unification can keep a search with a limit from ending. Which unifications these are is
said by `RunEquation`: the equations that a run **starts**, each after those before it have been
answered. When they all are answered on some budget, so is the search (`refute_of_isBounded`).

* Every stage of an inference ends because it goes through a list from left to right or makes a
  clause smaller, so it is answered on large budgets when its equations are (`Budgeted.Answers`).
* Every round that does not end the search makes a clause known, so each of the two limits bounds
  the number of finished rounds (`Search.Ready.rounds_le`).

## Equations are those that are reached

Unification with offsets need not end, so the statement has a hypothesis, and the weaker the
hypothesis is, the more it says. It does not ask for all equations between literals of the run to be
answered. A clause that is factored stops at its first pair that can be merged, a clause that is
tested stops at the first two literals that unify, and resolving two clauses stops at an error; what
comes after that is not started, and nothing is asked of it. `ComesTo` is this order of events for a
list, and the predicates `Clause.FactorEquation`, `Clause.TautologyEquation`, `Clash.Equation` and
`ResolveEquation` follow the stages with it.

## Two bounds, and who reports them

With a limit of rounds the bound is the limit itself. With a limit of clauses it is what the limit
leaves room for, and one more, since the round that exceeds the limit, or that finds nothing, is
finished as well. The two limits may stop the same search in different places, so `StopsAtRounds`
and `StopsAtClauses` tell them apart, and the numbers that are reported are attributed to the one
that stopped it.

For flat clauses the hypothesis holds by itself, with offsets or without
(`terminates_of_runEquation`).
-/

namespace OffsetLogic

/-! ### Answers on large budgets -/

/-- From some budget on, the computation answers `a`. -/
def Budgeted.Answers {α : Type} (f : Nat → Budgeted α) (a : α) : Prop :=
  ∃ m, ∀ n, m ≤ n → f n = some a

namespace Budgeted.Answers

variable {α β : Type} {f : Nat → Budgeted α} {a : α}

theorem pure (a : α) : Answers (fun _ ↦ some a) a := ⟨0, fun _ _ ↦ rfl⟩

/-- A sequence is answered on the larger of the budgets that its two parts ask for. -/
theorem bind {g : Nat → α → Budgeted β} {b : β} (hf : Answers f a) (hg : Answers (g · a) b) :
    Answers (fun n ↦ (f n).bind (g n)) b := by
  obtain ⟨m, hm⟩ := hf
  obtain ⟨k, hk⟩ := hg
  refine ⟨max m k, fun n hn ↦ ?_⟩
  show (f n).bind (g n) = some b
  rw [hm n (by omega)]
  exact hk n (by omega)

theorem map (g : α → β) (hf : Answers f a) : Answers (fun n ↦ (f n).map g) (g a) := by
  obtain ⟨m, hm⟩ := hf
  exact ⟨m, fun n hn ↦ congrArg (Option.map g) (hm n hn)⟩

/-- An answer on one budget, if larger budgets keep it. -/
theorem of_le {n : Nat} (hf : ∀ {m n}, m ≤ n → Le (f m) (f n)) (h : f n = some a) : Answers f a :=
  ⟨n, fun _ hn ↦ hf hn a h⟩

end Budgeted.Answers

open Budgeted

/-- Passing the items of a list from left to right as long as `P` holds of them, one comes to
`a`. -/
def ComesTo {α : Type} (P : α → Prop) (l : List α) (a : α) : Prop :=
  ∃ pre post, l = pre ++ a :: post ∧ ∀ b ∈ pre, P b

namespace ComesTo

variable {α : Type} {P : α → Prop} {l : List α} {a b : α}

theorem head (l : List α) (a : α) : ComesTo P (a :: l) a := ⟨[], l, rfl, fun _ h ↦ nomatch h⟩

theorem tail (hb : P b) (h : ComesTo P l a) : ComesTo P (b :: l) a := by
  obtain ⟨pre, post, rfl, hpre⟩ := h
  exact ⟨b :: pre, post, rfl, List.forall_mem_cons.2 ⟨hb, hpre⟩⟩

theorem mem (h : ComesTo P l a) : a ∈ l := by
  obtain ⟨pre, post, rfl, -⟩ := h
  exact List.mem_append_right _ List.mem_cons_self

end ComesTo

/-- A search through a list is answered when the items that it comes to are; and it has come to the
one that it found. -/
theorem exists_answers_findSomeM? {α β ε : Type} {f : Nat → α → ExceptT ε Budgeted (Option β)}
    {l : List α}
    (h : ∀ a, ComesTo (fun a ↦ Answers (fun n ↦ (f n a).run) (.ok none)) l a →
      ∃ r, Answers (fun n ↦ (f n a).run) r) :
    ∃ r, Answers (fun n ↦ (l.findSomeM? (f n)).run) r ∧ ∀ b, r = .ok (some b) →
      ∃ a, ComesTo (fun a ↦ Answers (fun n ↦ (f n a).run) (.ok none)) l a ∧
        Answers (fun n ↦ (f n a).run) (.ok (some b)) := by
  induction l with
  | nil => exact ⟨.ok none, .pure _, by rintro _ ⟨⟩⟩
  | cons a l ih =>
    obtain ⟨r, hr⟩ := h a (.head l a)
    have hrun : ∀ n, ((a :: l).findSomeM? (f n)).run = (f n a).run.bind fun
        | .error e => some (.error e)
        | .ok (some b) => some (.ok (some b))
        | .ok none => (l.findSomeM? (f n)).run := by
      intro n
      rw [List.findSomeM?, ExceptT.run_bind]
      refine congrArg (Option.bind _) (funext fun r ↦ ?_)
      obtain e | b? := r
      · rfl
      · cases b? <;> rfl
    simp only [hrun]
    obtain e | b? := r
    · exact ⟨.error e, hr.bind (.pure _), by rintro _ ⟨⟩⟩
    · cases b? with
      | some b =>
        refine ⟨.ok (some b), hr.bind (.pure _), ?_⟩
        rintro _ ⟨⟩
        exact ⟨a, .head l a, hr⟩
      | none =>
        obtain ⟨r, hrest, hfound⟩ := ih fun b hb ↦ h b (.tail hr hb)
        refine ⟨r, hr.bind hrest, fun b hb ↦ ?_⟩
        obtain ⟨a', ha', hb'⟩ := hfound b hb
        exact ⟨a', .tail hr ha', hb'⟩

/-- A test of some member is answered when the items that it comes to are; it passes those that fail
the test. -/
theorem exists_answers_anyM {α : Type} {f : Nat → α → Budgeted Bool} {l : List α}
    (h : ∀ a, ComesTo (fun a ↦ Answers (f · a) false) l a → ∃ b, Answers (f · a) b) :
    ∃ b, Answers (fun n ↦ l.anyM (f n)) b := by
  induction l with
  | nil => exact ⟨false, .pure _⟩
  | cons a l ih =>
    obtain ⟨b, hb⟩ := h a (.head l a)
    have hrun : ∀ n, (a :: l).anyM (f n) = (f n a).bind fun
        | true => some true
        | false => l.anyM (f n) := by
      intro n
      rw [List.anyM]
      refine congrArg (Option.bind _) (funext fun b ↦ ?_)
      cases b <;> rfl
    simp only [hrun]
    cases b with
    | true => exact ⟨true, hb.bind (.pure _)⟩
    | false =>
      obtain ⟨b, hrest⟩ := ih fun a' ha' ↦ h a' (.tail hb ha')
      exact ⟨b, hb.bind hrest⟩

/-! ### The unifications of a run -/

/-- The equations that are started when a clause is factored: those of the pairs that are tried, up
to the first one that makes the clause smaller, and then those of the smaller clause. -/
inductive Clause.FactorEquation : Clause → Term × Term → Prop where
  /-- A pair is tried. -/
  | tried {c : Clause} {e : Term × Term} :
      ComesTo (fun e ↦ Answers (fun n ↦ (c.merge? n e).run) (.ok none)) c.pairs e →
      FactorEquation c e
  /-- A pair is tried after another one was merged. -/
  | merged {c : Clause} {e e' : Term × Term} {d : { d : Clause // d.size < c.size }} :
      ComesTo (fun e ↦ Answers (fun n ↦ (c.merge? n e).run) (.ok none)) c.pairs e →
      Answers (fun n ↦ (c.merge? n e).run) (.ok (some d)) → FactorEquation d.1 e' →
      FactorEquation c e'

/-- The equations that are started when a clause is tested for being tautological: those of positive
literals and negated ones, up to the first that is solved. -/
def Clause.TautologyEquation (c : Clause) (e : Term × Term) : Prop :=
  ComesTo (fun p ↦ Answers (fun n ↦ c.neg.toList.anyM (unifiable n p)) false) c.pos.toList e.1 ∧
    ComesTo (fun q ↦ Answers (fun n ↦ unifiable n e.1 q) false) c.neg.toList e.2

/-- The equations that are started when a clash is resolved: that of the clashing literals, and
those of factoring and testing the conclusion. -/
def Clash.Equation (k : Clash) (e : Term × Term) : Prop :=
  e = (k.positive, k.negated) ∨
    ∃ s c, Answers (fun n ↦ mgu? n k.positive k.negated) (some s) ∧ k.remainder.apply s = .ok c ∧
      (c.FactorEquation e ∨ ∃ d, Answers (fun n ↦ (c.factor n).run) (.ok d) ∧
        d.canonicalize.TautologyEquation e)

/-- The equations that are started when two clauses are resolved, clash after clash up to the first
error. -/
def ResolveEquation (c d : Clause) (e : Term × Term) : Prop :=
  ∃ k, ComesTo (fun k ↦ ∃ i?, Answers (fun n ↦ (k.infer? n).run) (.ok i?)) (clashes c d) k ∧
    k.Equation e

/-- The equations that a run starts. -/
def RunEquation (config : Config) (clauses : List Clause) (e : Term × Term) : Prop :=
  ∃ n st pair todo, Search.Reached (resolve n) config clauses st (pair :: todo) ∧
    ResolveEquation pair.1.clause pair.2.clause e

/-- Whether the equation has a solution is answered on some budget. -/
def Terminates (e : Term × Term) : Prop := ∃ n r, mgu? n e.1 e.2 = some r

/-! ### Every stage is answered when its equations are -/

/-- An equation that is answered on some budget has the same answer on all larger ones. -/
theorem Terminates.exists_answers {e : Term × Term} (h : Terminates e) :
    ∃ r, Answers (fun n ↦ mgu? n e.1 e.2) r := by
  obtain ⟨n, r, hr⟩ := h
  exact ⟨r, .of_le (fun hmn ↦ mgu?_le hmn _ _) hr⟩

namespace Clause

theorem exists_answers_merge? {c : Clause} {e : Term × Term} (h : Terminates e) :
    ∃ r, Answers (fun n ↦ (c.merge? n e).run) r := by
  obtain ⟨s?, hs⟩ := h.exists_answers
  simp only [merge?_run]
  cases s? with
  | none => exact ⟨_, hs.bind (.pure _)⟩
  | some s =>
    cases hd : c.apply s with
    | error err => exact ⟨_, hs.bind (by simp only [hd]; exact .pure _)⟩
    | ok d => exact ⟨_, hs.bind (by simp only [hd]; exact .pure _)⟩

/-- Factoring tries pairs until one makes the clause smaller, and then starts again; the recursion
is on the size of the clause. -/
theorem exists_answers_factor (c : Clause) (h : ∀ e, c.FactorEquation e → Terminates e) :
    ∃ r, Answers (fun n ↦ (c.factor n).run) r := by
  obtain ⟨r, hr, hfound⟩ := exists_answers_findSomeM? (f := fun n ↦ c.merge? n) (l := c.pairs)
    fun e he ↦ exists_answers_merge? (h e (.tried he))
  have hrun : ∀ n, (c.factor n).run = (c.pairs.findSomeM? (c.merge? n)).run.bind fun
      | .error e => some (.error e)
      | .ok none => some (.ok c)
      | .ok (some d) => (d.1.factor n).run := by
    intro n
    rw [factor, ExceptT.run_bind]
    refine congrArg (Option.bind _) (funext fun r ↦ ?_)
    obtain e | d? := r
    · rfl
    · cases d? <;> rfl
  obtain e | d? := r
  · exact ⟨.error e, by simp only [hrun]; exact hr.bind (.pure _)⟩
  · cases d? with
    | none => exact ⟨.ok c, by simp only [hrun]; exact hr.bind (.pure _)⟩
    | some d =>
      obtain ⟨e, he, hd⟩ := hfound d rfl
      obtain ⟨r, hrest⟩ := exists_answers_factor d.1 fun e' he' ↦ h e' (.merged he hd he')
      exact ⟨r, by simp only [hrun]; exact hr.bind hrest⟩
termination_by c.size
decreasing_by exact d.2

/-- The test is two searches through lists, one within the other. -/
theorem exists_answers_isTautological {c : Clause}
    (h : ∀ e, c.TautologyEquation e → Terminates e) :
    ∃ b, Answers (fun n ↦ c.isTautological n) b := by
  refine exists_answers_anyM fun p hp ↦ exists_answers_anyM fun q hq ↦ ?_
  obtain ⟨s?, hs⟩ := (h (p, q) ⟨hp, hq⟩).exists_answers
  exact ⟨s?.isSome, hs.map _⟩

end Clause

/-- An inference goes on to the equations of its conclusion only when the clash is solved and the
substitution could be applied. -/
theorem Clash.exists_answers_infer? {k : Clash} (h : ∀ e, k.Equation e → Terminates e) :
    ∃ r, Answers (fun n ↦ (k.infer? n).run) r := by
  obtain ⟨s?, hs⟩ := (h _ (.inl rfl)).exists_answers
  simp only [infer?_run]
  cases s? with
  | none => exact ⟨_, hs.bind (.pure _)⟩
  | some s =>
    cases hc : k.remainder.apply s with
    | error err => exact ⟨_, hs.bind (by simp only [hc]; exact .pure _)⟩
    | ok c =>
      obtain ⟨r, hr⟩ := c.exists_answers_factor fun e he ↦ h e (.inr ⟨s, c, hs, hc, .inl he⟩)
      obtain err | d := r
      · exact ⟨_, hs.bind (by simp only [hc]; exact hr.bind (.pure _))⟩
      · obtain ⟨b, hb⟩ := d.canonicalize.exists_answers_isTautological fun e he ↦
          h e (.inr ⟨s, c, hs, hc, .inr ⟨d, hr, he⟩⟩)
        exact ⟨_, hs.bind (by simp only [hc]; exact hr.bind (hb.map _))⟩

/-- The clashes are resolved in order, and an error ends the list. -/
theorem exists_answers_inferFrom {ks : List Clash}
    (h : ∀ k, ComesTo (fun k ↦ ∃ i?, Answers (fun n ↦ (k.infer? n).run) (.ok i?)) ks k →
      ∃ r, Answers (fun n ↦ (k.infer? n).run) r) :
    ∃ r, Answers (fun n ↦ inferFrom n ks) r := by
  induction ks with
  | nil => exact ⟨_, .pure _⟩
  | cons k ks ih =>
    obtain ⟨r, hr⟩ := h k (.head ks k)
    simp only [inferFrom_cons]
    obtain e | i? := r
    · exact ⟨_, hr.bind (.pure _)⟩
    · obtain ⟨r, hrest⟩ := ih fun k' hk' ↦ h k' (.tail ⟨i?, hr⟩ hk')
      cases i? with
      | none => exact ⟨r, hr.bind hrest⟩
      | some i => exact ⟨_, hr.bind (hrest.map _)⟩

theorem exists_answers_resolve {c d : Clause} (h : ∀ e, ResolveEquation c d e → Terminates e) :
    ∃ r, Answers (fun n ↦ resolve n c d) r :=
  exists_answers_inferFrom fun k hk ↦ k.exists_answers_infer? fun e he ↦ h e ⟨k, hk, he⟩

/-! ### Runs -/

namespace Search

variable {infer infer' : Clause → Clause → Budgeted Resolution} {config : Config} {m n : Nat}
variable {clauses : List Clause} {st st' : Search} {pair : ProofTree × ProofTree}
variable {todo : List (ProofTree × ProofTree)} {report : Report}

/-- A state that is reached is reached with a rule that answers more. -/
theorem Reached.mono (h : Reached infer config clauses st todo)
    (hle : ∀ a b, Le (infer a b) (infer' a b)) : Reached infer' config clauses st todo := by
  induction h with
  | start hempty hb => exact .start hempty hb
  | @examine st st' pair _ _ he ih => exact .examine ih (examine_le hle config st pair _ he)
  | next _ hf hb ih => exact .next ih hf hb

theorem Ready.mono (h : Ready infer config clauses st) (hle : ∀ a b, Le (infer a b) (infer' a b)) :
    Ready infer' config clauses st := by
  cases h with
  | start hempty => exact .start hempty
  | next hreach hf => exact .next (hreach.mono hle) hf

/-- A round counts itself. -/
theorem rounds_of_round (h : (st.round infer config).run = some (.ok st')) :
    st'.stats.rounds = st.stats.rounds + 1 := by
  obtain ⟨st₁, st₂, hb, hfold, hf⟩ := round_eq_ok h
  obtain ⟨-, rfl⟩ := begin_eq_ok_iff.1 hb
  obtain ⟨-, -, rfl⟩ := finish_eq_ok_iff.1 hf
  exact eq_of_foldlM (f := fun st ↦ st.stats.rounds) (fun h ↦ (finishedRounds_examine h).2.1) hfold

theorem exists_answers_examine
    (h : ∀ e, ResolveEquation pair.1.clause pair.2.clause e → Terminates e) :
    ∃ r, Answers (fun n ↦ (st.examine (resolve n) config pair).run) r := by
  obtain ⟨r, hr⟩ := exists_answers_resolve h
  simp only [examine_run]
  exact ⟨_, hr.map _⟩

/-- By induction on the pairs that are left. The state that one pair leads to has been reached on
some budget, and `Reached.mono` brings it to a larger one. -/
theorem exists_answers_foldlM (hunify : ∀ e, RunEquation config clauses e → Terminates e)
    (h : Reached (resolve m) config clauses st todo) :
    ∃ r, Answers (fun n ↦ (todo.foldlM (Search.examine (resolve n) config) st).run) r := by
  induction todo generalizing m st with
  | nil => exact ⟨_, .pure _⟩
  | cons pair todo ih =>
    obtain ⟨r, k, hk⟩ : ∃ r, Answers (fun n ↦ (st.examine (resolve n) config pair).run) r :=
      exists_answers_examine fun e he ↦ hunify e ⟨m, st, pair, todo, h, he⟩
    simp only [List.foldlM_cons, ExceptT.run_bind]
    obtain report | st' := r
    · exact ⟨_, Answers.bind ⟨k, hk⟩ (.pure _)⟩
    · have hnext : Reached (resolve (max m k)) config clauses st (pair :: todo) :=
        h.mono (resolve_le (Nat.le_max_left m k))
      obtain ⟨r, hrest⟩ := ih (hnext.examine (hk _ (Nat.le_max_right m k)))
      exact ⟨r, Answers.bind ⟨k, hk⟩ hrest⟩

theorem exists_answers_round (hunify : ∀ e, RunEquation config clauses e → Terminates e)
    (h : Ready (resolve m) config clauses st) :
    ∃ r, Answers (fun n ↦ (st.round (resolve n) config).run) r := by
  simp only [round_run]
  cases hb : st.begin config with
  | error report => exact ⟨_, .pure _⟩
  | ok st₁ =>
    obtain ⟨r, hr⟩ := exists_answers_foldlM hunify (h.begin hb)
    exact ⟨_, hr.map _⟩

/-- Rounds come to an end when a run cannot begin more than `bound` of them. -/
theorem exists_saturate (hunify : ∀ e, RunEquation config clauses e → Terminates e) {bound : Nat}
    (hbound : ∀ n st, Ready (resolve n) config clauses st → st.stats.rounds ≤ bound)
    (h : Ready (resolve m) config clauses st) {left : Nat}
    (hleft : bound < st.stats.rounds + left) :
    ∃ report k, ∀ n i, k ≤ n → k ≤ i → saturate (resolve n) config i st = some report := by
  induction left generalizing m st with
  | zero => exact absurd (hbound m st h) (Nat.not_le.2 hleft)
  | succ left ih =>
    obtain ⟨r, k, hk⟩ := exists_answers_round hunify h
    obtain report | st' := r
    · refine ⟨report, k + 1, fun n i hn hi ↦ ?_⟩
      obtain ⟨i, rfl⟩ : ∃ j, i = j + 1 := ⟨i - 1, by omega⟩
      exact saturate_succ_eq_some_iff.2 (.inl (hk n (by omega)))
    · have hround := hk _ (Nat.le_max_right m k)
      have hnext : Ready (resolve (max m k)) config clauses st :=
        h.mono (resolve_le (Nat.le_max_left m k))
      obtain ⟨report, k', hk'⟩ := ih (hnext.round hround) (by rw [rounds_of_round hround]; omega)
      refine ⟨report, max k k' + 1, fun n i hn hi ↦ ?_⟩
      obtain ⟨i, rfl⟩ : ∃ j, i = j + 1 := ⟨i - 1, by omega⟩
      exact saturate_succ_eq_some_iff.2
        (.inr ⟨st', hk n (by omega), hk' n i (by omega) (by omega)⟩)

/-- No more rounds are begun than a limit of rounds allows, and than clauses that a limit of clauses
left room for. -/
theorem Ready.rounds_le (h : Ready infer config clauses st) :
    (∀ r, config.maxRounds = some r → st.stats.rounds ≤ r) ∧
      ∀ m, config.maxClauses = some m → st.stats.rounds ≤ m - clauses.eraseDups.length := by
  obtain ⟨hpaced, hlimit⟩ := h.paced
  exact ⟨fun r hr ↦ Config.exceeds_eq_false_iff.1 (hr ▸ hlimit), fun m ↦ hpaced.le_of_maxClauses⟩

/-- The search stops where a round is to begin, at the limit of rounds. -/
def StopsAtRounds (infer : Clause → Clause → Budgeted Resolution) (config : Config)
    (clauses : List Clause) (report : Report) : Prop :=
  ∃ st, Ready infer config clauses st ∧ st.begin config = .error report

/-- The search stops where a round is over that has found something, at the limit of clauses. -/
def StopsAtClauses (infer : Clause → Clause → Budgeted Resolution) (config : Config)
    (clauses : List Clause) (report : Report) : Prop :=
  ∃ st, Reached infer config clauses st [] ∧ st.fresh ≠ [] ∧ st.finish config = .error report

/-- Every limit is that of rounds or that of clauses. -/
theorem Ended.stops_of_isLimit (h : Ended infer config clauses report) (hlimit : report.IsLimit) :
    StopsAtRounds infer config clauses report ∨ StopsAtClauses infer config clauses report := by
  obtain ⟨rounds, count, hresult⟩ := hlimit
  cases h with
  | emptyInput => cases hresult
  | examine _ he => exact absurd hresult (ne_limit_of_examine he)
  | @finish st _ hreach he =>
    obtain ⟨-, rfl⟩ | ⟨hfresh, -, -⟩ := finish_eq_error_iff.1 he
    · cases hresult
    · exact .inr ⟨st, hreach, hfresh, he⟩
  | @begin st _ hready hb => exact .inl ⟨st, hready, hb⟩

/-- At a limit of `r` rounds the search reports `r + 1`, which is the round that did not begin. -/
theorem StopsAtRounds.result_eq {r : Nat} (h : StopsAtRounds infer config clauses report)
    (hr : config.maxRounds = some r) : ∃ count, report.result = .error (.limit (r + 1) count) := by
  obtain ⟨st, hready, hb⟩ := h
  obtain ⟨hexceeds, rfl⟩ := begin_eq_error_iff.1 hb
  have hle := hready.rounds_le.1 r hr
  have hlt : r < st.stats.rounds + 1 := by
    rw [hr] at hexceeds
    exact of_decide_eq_true hexceeds
  obtain rfl : st.stats.rounds = r := by omega
  exact ⟨_, rfl⟩

/-- At a limit of clauses the search reports more clauses than the limit allows. -/
theorem StopsAtClauses.result_eq {m : Nat} (h : StopsAtClauses infer config clauses report)
    (hm : config.maxClauses = some m) :
    ∃ rounds count, report.result = .error (.limit rounds count) ∧ m < count := by
  obtain ⟨st, -, hfresh, hf⟩ := h
  obtain ⟨hnone, -⟩ | ⟨-, hexceeds, rfl⟩ := finish_eq_error_iff.1 hf
  · exact absurd hnone hfresh
  · rw [hm] at hexceeds
    exact ⟨_, _, rfl, of_decide_eq_true hexceeds⟩

/-- So many rounds are finished when a run ends, and so many are counted. -/
theorem Ended.rounds_le (h : Ended infer config clauses report) :
    (∀ r, config.maxRounds = some r → (finishedRounds report.events).length ≤ r ∧
      (report.stats.rounds ≤ r ∨ StopsAtRounds infer config clauses report)) ∧
    ∀ m, config.maxClauses = some m →
      (finishedRounds report.events).length ≤ m - clauses.eraseDups.length + 1 ∧
      report.stats.rounds ≤ m - clauses.eraseDups.length + 1 := by
  cases h with
  | emptyInput =>
    exact ⟨fun _ _ ↦ ⟨Nat.zero_le _, .inl (Nat.zero_le _)⟩,
      fun _ _ ↦ ⟨Nat.zero_le _, Nat.zero_le _⟩⟩
  | examine hreach he =>
    obtain ⟨k, hk, hlimit, hpaced⟩ := hreach.paced
    obtain ⟨hrounds, hevents⟩ := finishedRounds_examine_error he
    rw [hevents, hpaced.finished, hrounds, hk]
    refine ⟨fun r hr ↦ ?_, fun m hm ↦ ?_⟩
    · have hle := Config.exceeds_eq_false_iff.1 (hr ▸ hlimit)
      exact ⟨Nat.le_of_succ_le hle, .inl hle⟩
    · have hle := hpaced.le_of_maxClauses hm
      exact ⟨Nat.le_succ_of_le hle, Nat.succ_le_succ hle⟩
  | finish hreach he =>
    obtain ⟨k, hk, hlimit, hpaced⟩ := hreach.paced
    obtain ⟨hrounds, hevents⟩ := finishedRounds_finish_error he
    rw [hevents, List.length_append, hpaced.finished, hrounds, hk]
    refine ⟨fun r hr ↦ ?_, fun m hm ↦ ?_⟩
    · have hle := Config.exceeds_eq_false_iff.1 (hr ▸ hlimit)
      exact ⟨hle, .inl hle⟩
    · have hle := Nat.succ_le_succ (hpaced.le_of_maxClauses hm)
      exact ⟨hle, hle⟩
  | @begin st _ hready hb =>
    have hstops : StopsAtRounds infer config clauses report := ⟨st, hready, hb⟩
    obtain ⟨hrounds, hevents⟩ := finishedRounds_begin_error hb
    rw [hevents, hready.paced.1.finished, hrounds]
    refine ⟨fun r hr ↦ ⟨hready.rounds_le.1 r hr, .inr hstops⟩, fun m hm ↦ ?_⟩
    have hle := hready.rounds_le.2 m hm
    exact ⟨Nat.le_succ_of_le hle, Nat.succ_le_succ hle⟩

end Search

/-- **A bounded search ends.** With a limit, and if every equation that the run starts is answered,
the search ends. With a limit of `r` rounds it finishes `r` rounds at most, and counts no more of
them unless it stops at that limit and reports `r + 1`. With a limit of `m` clauses it finishes one
round more at most than clauses were left to `m` by those given, and counts no more of them; and
stopping at that limit reports more than `m`. -/
theorem refute_of_isBounded {config : Config} {clauses : List Clause}
    (hbounded : config.isBounded = true)
    (hunify : ∀ e, RunEquation config clauses e → Terminates e) :
    (∃ n report, refute n config clauses = some report) ∧
    ∀ n report, refute n config clauses = some report →
      (∀ r, config.maxRounds = some r → (finishedRounds report.events).length ≤ r ∧
        (report.stats.rounds ≤ r ∨ Search.StopsAtRounds (resolve n) config clauses report) ∧
        (Search.StopsAtRounds (resolve n) config clauses report →
          ∃ count, report.result = .error (.limit (r + 1) count))) ∧
      (∀ m, config.maxClauses = some m →
        (finishedRounds report.events).length ≤ m - clauses.eraseDups.length + 1 ∧
        report.stats.rounds ≤ m - clauses.eraseDups.length + 1 ∧
        (Search.StopsAtClauses (resolve n) config clauses report →
          ∃ rounds count, report.result = .error (.limit rounds count) ∧ m < count)) ∧
      (report.IsLimit → Search.StopsAtRounds (resolve n) config clauses report ∨
        Search.StopsAtClauses (resolve n) config clauses report) := by
  refine ⟨?_, fun n report h ↦ ?_⟩
  · obtain ⟨bound, hbound⟩ : ∃ bound, ∀ n st, Search.Ready (resolve n) config clauses st →
        st.stats.rounds ≤ bound := by
      rcases Bool.or_eq_true_iff.1 hbounded with hsome | hsome
      · obtain ⟨r, hr⟩ := Option.isSome_iff_exists.1 hsome
        exact ⟨r, fun n st h ↦ h.rounds_le.1 r hr⟩
      · obtain ⟨m, hm⟩ := Option.isSome_iff_exists.1 hsome
        exact ⟨_, fun n st h ↦ h.rounds_le.2 m hm⟩
    cases hempty : clauses.any Clause.isEmpty with
    | true => exact ⟨0, _, by simp only [refute, refuteWith, hempty, if_true]; rfl⟩
    | false =>
      obtain ⟨report, n, hn⟩ := Search.exists_saturate (m := 0) hunify hbound (.start hempty)
        (Nat.lt_add_left _ (Nat.lt_succ_self bound))
      refine ⟨n, report, ?_⟩
      simp only [refute, refuteWith, hempty, Bool.false_eq_true, if_false]
      exact hn n n (Nat.le_refl n) (Nat.le_refl n)
  · have hended := Search.ended_of_refuteWith h
    obtain ⟨hrounds, hclauses⟩ := hended.rounds_le
    refine ⟨fun r hr ↦ ?_, fun m hm ↦ ?_, hended.stops_of_isLimit⟩
    · obtain ⟨hfinished, hcounted⟩ := hrounds r hr
      exact ⟨hfinished, hcounted, fun h ↦ h.result_eq hr⟩
    · obtain ⟨hfinished, hcounted⟩ := hclauses m hm
      exact ⟨hfinished, hcounted, fun h ↦ h.result_eq hm⟩

/-! ### Flat clauses -/

/-- Every equation between flat literals is answered. -/
theorem terminates_of_isFlat {o : Offsets} {e : Term × Term} (h₁ : e.1.isFlat o = true)
    (h₂ : e.2.isFlat o = true) : Terminates e :=
  have ⟨r, hr⟩ := exists_mgu?_run h₁ h₂ 0
  ⟨2, r, hr⟩

/-- Factoring keeps flat clauses flat, so the equations after a merge are flat, too. -/
theorem Clause.FactorEquation.terminates {o : Offsets} {c : Clause} {e : Term × Term}
    (h : c.FactorEquation e) (hc : c.isFlat o = true) : Terminates e := by
  induction h with
  | tried he =>
    have heflat := isFlat_of_mem_pairs hc he.mem
    exact terminates_of_isFlat heflat.1 heflat.2
  | merged he hd _ ih =>
    obtain ⟨m, hm⟩ := hd
    obtain ⟨s, hs, happly⟩ := merge?_eq_ok_some (hm m (Nat.le_refl m))
    obtain ⟨al⟩ := nonempty_aliasing_of_mgu? hs
    have heflat := isFlat_of_mem_pairs hc he.mem
    exact ih (isFlat_apply (shallow_of_mgu? heflat.1 heflat.2 hs) al hc happly)

theorem Clause.TautologyEquation.terminates {o : Offsets} {c : Clause} {e : Term × Term}
    (h : c.TautologyEquation e) (hc : c.isFlat o = true) : Terminates e :=
  terminates_of_isFlat ((isFlat_iff.1 hc).1 _ h.1.mem) ((isFlat_iff.1 hc).2 _ h.2.mem)

/-- A run on flat clauses starts flat equations only, and they are answered. -/
theorem terminates_of_runEquation {config : Config} {clauses : List Clause} {e : Term × Term}
    (hflat : ∀ c ∈ clauses, c.isFlat .any = true) (h : RunEquation config clauses e) :
    Terminates e := by
  obtain ⟨n, st, pair, todo, hreach, k, hk, he⟩ := h
  have hpair := hreach.consistent.mem_known
  have hknown := st.known_subset_trees
  obtain ⟨hl, hr, hp, hn⟩ := sides_of_mem_clashes (P := fun c ↦ c.isFlat .any = true) hk.mem
    (fun f _ ↦ Clause.isFlat_rename f) (hreach.flat hflat _ (hknown hpair.1))
    (hreach.flat hflat _ (hknown hpair.2))
  have hpflat := (Clause.isFlat_iff.1 hl).1 _ hp
  have hnflat := (Clause.isFlat_iff.1 hr).2 _ hn
  obtain rfl | ⟨s, c, ⟨m, hs⟩, hc, he⟩ := he
  · exact terminates_of_isFlat hpflat hnflat
  · have hs := hs m (Nat.le_refl m)
    obtain ⟨al⟩ := nonempty_aliasing_of_mgu? hs
    have hcflat : c.isFlat .any = true := Clause.isFlat_apply (shallow_of_mgu? hpflat hnflat hs) al
      (k.isFlat_remainder hl hr) hc
    obtain he | ⟨d, ⟨m, hd⟩, he⟩ := he
    · exact he.terminates hcflat
    · have hdflat := (Clause.factored_of_factor (hd m (Nat.le_refl m))).isFlat hcflat
      exact he.terminates (Clause.isFlat_rename _ hdflat)

/-- The search in `p(0)` and `¬p(x) ∨ p(x + 1)` would go on without end. With limits of four rounds
and five clauses it ends after the fourth round, when it knows six clauses. -/
theorem refute_of_isBounded_count :
    let config : Config := { maxRounds := some 4, maxClauses := some 5 }
    let clauses := [.ofLists [.app "p" [.const (.int 0)]] [],
      .ofLists [.app "p" [.var "x" 1]] [.app "p" [.var "x" 0]]]
    config.isBounded = true ∧ (∀ e, RunEquation config clauses e → Terminates e) ∧
      ∃ report, refute 4 config clauses = some report ∧
        report.result = .error (.limit 4 6) ∧
        Search.StopsAtClauses (resolve 4) config clauses report ∧
        (finishedRounds report.events).length ≤ 4 ∧
        (finishedRounds report.events).length ≤ 5 - 2 + 1 := by
  intro config clauses
  have hunify : ∀ e, RunEquation config clauses e → Terminates e :=
    fun e ↦ terminates_of_runEquation (by decide +kernel)
  have hrun : (refute 4 config clauses).map Report.result = some (.error (.limit 4 6)) := by
    decide +kernel
  obtain ⟨report, h, hresult⟩ := Option.map_eq_some_iff.1 hrun
  obtain ⟨hrounds, hclauses, hlimit⟩ :=
    (@refute_of_isBounded config clauses rfl hunify).2 4 report h
  obtain ⟨hfour, -, hfive⟩ := hrounds 4 rfl
  refine ⟨rfl, hunify, report, h, hresult, ?_, hfour, (hclauses 5 rfl).1⟩
  -- the limit of rounds would have reported the fifth round
  refine (hlimit ⟨_, _, hresult⟩).resolve_left fun hstops ↦ ?_
  obtain ⟨count, hcount⟩ := hfive hstops
  rw [hresult] at hcount
  cases hcount

end OffsetLogic
