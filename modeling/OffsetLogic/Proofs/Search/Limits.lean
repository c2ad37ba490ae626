import OffsetLogic.Proofs.Search.Run

/-!
# Limits and recording

A limit cuts a search short and changes nothing before that. Whether resolvents remember their
parents changes the derivation that is reported, and of that only what comes before its last step.
So a search under **tighter limits** ends at a limit or ends like the search under looser ones, and
it does so within the same budget (`refute_of_tighter`).

Two searches that differ in this way stay in step: at every moment they hold the same clauses in the
same order, with the same counts and events (`Search.SameClauses`), and only the trees of the
clauses may differ. A limit is looked at where a round begins and where it ends, and whenever it
stops the looser search it stops the tighter one, too (`Config.exceeds_of_limitLe`).

## One relation for each stage

The tighter search may stop where the looser one goes on, so the two are not related by an equation.
`Capped R` lists the cases: the first one is at a limit, and nothing is said of the second; neither
has an answer; both end with reports that agree; or both go on, with states that `R` relates. It is
kept by sequences (`Capped.bind`) and folds (`Capped.foldlM`), so each stage of a search needs one
lemma. Between the stages `R` is `Search.SameClauses`, a structure, and each thing that a stage
reads off a state agrees for related states by a lemma of its own.

## What the reports agree on

`Report.ending` keeps of a report all but the steps of its derivation before the last one. Counts,
events and errors are compared as they are. The last step is the same under both configurations
since it is made of the two clauses that were resolved last, and not of their trees.

The converse of the first part fails, and is not stated: a search that ends at a limit says nothing
of the looser search, which may have no answer on any budget.
-/

namespace OffsetLogic

/-! ### Tighter limits -/

namespace Config

/-- The limit `l` is at most `m`, where no limit is the largest one. -/
def LimitLe (l m : Option Nat) : Prop := ∀ j ∈ m, ∃ i ∈ l, i ≤ j

/-- Each limit of `a` is at most the same limit of `b`. What is recorded does not matter. -/
structure Tighter (a b : Config) : Prop where
  maxRounds : LimitLe a.maxRounds b.maxRounds
  maxClauses : LimitLe a.maxClauses b.maxClauses

/-- What is beyond a limit is beyond every tighter one. -/
theorem exceeds_of_limitLe {l m : Option Nat} {count : Nat} (h : LimitLe l m)
    (hm : exceeds count m = true) : exceeds count l = true := by
  cases m with
  | none => cases hm
  | some j =>
    obtain ⟨i, rfl, hij⟩ := h j rfl
    exact decide_eq_true (Nat.lt_of_le_of_lt hij (of_decide_eq_true hm))

end Config

/-! ### Endings -/

/-- The derivation without all but its last step. -/
def Derivation.ending (d : Derivation) : Derivation := ⟨d.last?.toList⟩

/-- The verdict with the last step of its derivation, if it has one. -/
def Verdict.ending : Verdict → Verdict
  | refuted d s => refuted d.ending s
  | saturated n s => saturated n s

namespace Report

/-- The report with the last step of its derivation, if it has one; its counts, its events and its
error are left as they are. -/
def ending (r : Report) : Report := { r with result := r.result.map Verdict.ending }

/-- The search stopped at a limit. -/
def IsLimit (r : Report) : Prop := ∃ rounds clauses, r.result = .error (.limit rounds clauses)

/-- An error is left alone by `ending`, so reports that end alike are at a limit together. -/
theorem IsLimit.of_ending_eq {r r' : Report} (h : r.ending = r'.ending) (hr : r'.IsLimit) :
    r.IsLimit := by
  obtain ⟨rounds, clauses, hr⟩ := hr
  have h : r.result.map Verdict.ending = r'.result.map Verdict.ending := congrArg Report.result h
  rw [hr] at h
  cases hresult : r.result with
  | error e =>
    rw [hresult] at h
    exact ⟨rounds, clauses, hresult.trans h⟩
  | ok v =>
    rw [hresult] at h
    cases h

end Report

/-- The derivation that a search reports ends by resolving the clauses of the pair examined last. -/
theorem ProofTree.ending_refutation (l r : ProofTree) :
    (refutation l r).ending = ⟨[⟨l.clause, r.clause, ∅⟩]⟩ := by
  simp [refutation, Derivation.ending, Derivation.last?]

/-! ### Ending within a limit -/

/-- The first computation stops at a limit, or both have no answer, end with reports that agree up
to earlier steps of a derivation, or have related results. -/
inductive Capped {α β : Type} (R : α → β → Prop) :
    Budgeted (Except Report α) → Budgeted (Except Report β) → Prop where
  | limit {r : Report} {y : Budgeted (Except Report β)} : r.IsLimit → Capped R (some (.error r)) y
  | none : Capped R none none
  | error {r r' : Report} : r.ending = r'.ending → Capped R (some (.error r)) (some (.error r'))
  | ok {a : α} {b : β} : R a b → Capped R (some (.ok a)) (some (.ok b))

namespace Capped

variable {α β γ σ τ : Type} {R : σ → τ → Prop}

/-- Sequences end alike when their first parts do, and the second parts do from related results on.
-/
theorem bind {R' : α → β → Prop} {x : ExceptT Report Budgeted σ} {y : ExceptT Report Budgeted τ}
    {f : σ → ExceptT Report Budgeted α} {g : τ → ExceptT Report Budgeted β}
    (h : Capped R x.run y.run) (hfg : ∀ s t, R s t → Capped R' (f s).run (g t).run) :
    Capped R' (x >>= f).run (y >>= g).run := by
  rw [ExceptT.run_bind, ExceptT.run_bind]
  generalize x.run = x' at h
  generalize y.run = y' at h
  cases h with
  | limit hr => exact .limit hr
  | none => exact .none
  | error hr => exact .error hr
  | ok hst => exact hfg _ _ hst

/-- Two folds over lists that look alike stay related when their steps do. -/
theorem foldlM {p : α → γ} {q : β → γ} {f : σ → α → ExceptT Report Budgeted σ}
    {g : τ → β → ExceptT Report Budgeted τ}
    (step : ∀ s t a b, R s t → p a = q b → Capped R (f s a).run (g t b).run) {l : List α}
    {l' : List β} (hl : l.map p = l'.map q) {s : σ} {t : τ} (hst : R s t) :
    Capped R (l.foldlM f s).run (l'.foldlM g t).run := by
  induction l generalizing l' s t with
  | nil =>
    obtain rfl := List.map_eq_nil_iff.1 hl.symm
    exact .ok hst
  | cons a l ih =>
    obtain ⟨b, l', rfl, hab, hl⟩ := List.map_eq_cons_iff.1 hl.symm
    rw [List.foldlM_cons, List.foldlM_cons]
    exact (step s t a b hst hab.symm).bind fun _ _ h ↦ ih hl.symm h

end Capped

namespace Search

variable {infer : Clause → Clause → Budgeted Resolution} {a b : Config} {st st' : Search}
variable {pair pair' : ProofTree × ProofTree} {l l' r r' : ProofTree} {c : Clause}

/-! ### Searches in step -/

/-- The searches hold the same clauses in the same order and have counted and logged the same. -/
structure SameClauses (st st' : Search) : Prop where
  settled : st.settled.map ProofTree.clause = st'.settled.map ProofTree.clause
  recent : st.recent.map ProofTree.clause = st'.recent.map ProofTree.clause
  fresh : st.fresh.map ProofTree.clause = st'.fresh.map ProofTree.clause
  stats : st.stats = st'.stats
  events : st.events = st'.events

namespace SameClauses

theorem refl (st : Search) : SameClauses st st := ⟨rfl, rfl, rfl, rfl, rfl⟩

variable (h : SameClauses st st')

include h

/-- Both searches know the same clauses. -/
theorem known : st.known.map ProofTree.clause = st'.known.map ProofTree.clause := by
  rw [Search.known, Search.known, List.map_append, List.map_append, h.settled, h.recent]

theorem length_known : st.known.length = st'.known.length := by
  simpa using congrArg List.length h.known

theorem length_fresh : st.fresh.length = st'.fresh.length := by
  simpa using congrArg List.length h.fresh

theorem isEmpty_fresh : st.fresh.isEmpty = st'.fresh.isEmpty := by
  simpa using congrArg List.isEmpty h.fresh

/-- The test for a clause looks at clauses, and not at their trees. -/
theorem contains (c : Clause) : st.contains c = st'.contains c := by
  rw [Bool.eq_iff_iff, contains_iff, contains_iff, trees, trees, List.map_append, List.map_append,
    h.known, h.fresh]

theorem log (e : Event) : SameClauses (st.log e) (st'.log e) :=
  ⟨h.settled, h.recent, h.fresh, h.stats, congrArg (Array.push · e) h.events⟩

/-- Both searches count and log a resolution in the same way. -/
theorem record (r : Resolution) : SameClauses (st.record r) (st'.record r) := by
  refine ⟨h.settled, h.recent, h.fresh, ?_, ?_⟩
  · rw [Search.record, Search.record, h.stats]
  · rw [Search.record, Search.record, h.events]

/-- The pairs of a round are the same clauses. -/
theorem newPairs :
    (newPairs st.settled st.recent).map (Prod.map ProofTree.clause ProofTree.clause) =
      (OffsetLogic.newPairs st'.settled st'.recent).map
        (Prod.map ProofTree.clause ProofTree.clause) := by
  rw [map_newPairs, map_newPairs, h.settled, h.recent]

/-! Reports of searches in step agree up to earlier steps of a derivation. -/

/-- Refutations agree when their last steps do. -/
theorem ending_refutedBy {d d' : Derivation} (hd : d.ending = d'.ending) {m m' : Nat}
    (hm : m = m') : (st.refutedBy d m).ending = (st'.refutedBy d' m').ending := by
  simp only [refutedBy, Report.ending, Except.map, Verdict.ending, h.stats, h.events, hd, hm]

/-- A saturated search reports counts and events only, so these reports are equal. -/
theorem saturatedReport : st.saturatedReport = st'.saturatedReport := by
  simp only [Search.saturatedReport, h.stats, h.events, h.length_known]

theorem faultReport (e : ShiftError) : st.faultReport e = st'.faultReport e := by
  simp only [Search.faultReport, h.stats, h.events]

end SameClauses

/-! ### Steps of searches in step -/

/-- A resolvent is empty, known or new for both searches; recorded parents are the only difference.
-/
theorem capped_absorb (hl : l.clause = l'.clause) (hr : r.clause = r'.clause)
    (h : SameClauses st st') :
    Capped SameClauses (some (absorb a l r st c)) (some (absorb b l' r' st' c)) := by
  rw [absorb, absorb, h.contains c]
  cases c.isEmpty
  · cases st'.contains c
    · refine .ok ⟨h.settled, h.recent, ?_, h.stats, h.events⟩
      rw [List.map_append, List.map_append, h.fresh]
      cases a.recordDerivation <;> cases b.recordDerivation <;> rfl
    · exact .ok h
  · refine .error ?_
    have hstep : (ProofTree.refutation l r).ending = (ProofTree.refutation l' r').ending := by
      rw [ProofTree.ending_refutation, ProofTree.ending_refutation, hl, hr]
    rw [h.stats]
    exact (h.log _).ending_refutedBy hstep (by rw [h.length_known, h.length_fresh])

/-- A fold without a budget answers within every budget. -/
theorem run_foldlM_some {α σ : Type} (f : σ → α → Except Report σ) (l : List α) (s : σ) :
    (l.foldlM (fun s e ↦ (ExceptT.mk (some (f s e)) : ExceptT Report Budgeted σ)) s).run =
      some (l.foldlM f s) := by
  induction l generalizing s with
  | nil => rfl
  | cons e l ih =>
    rw [List.foldlM_cons, List.foldlM_cons, ExceptT.run_bind]
    show Option.bind (some (f s e)) _ = some (Except.bind (f s e) _)
    cases f s e with
    | error report => rfl
    | ok s₁ => exact ih s₁

/-- The rule is given the same two clauses by both searches. -/
theorem capped_examine (h : SameClauses st st')
    (hpair : pair.map ProofTree.clause ProofTree.clause =
      pair'.map ProofTree.clause ProofTree.clause) :
    Capped SameClauses (st.examine infer a pair).run (st'.examine infer b pair').run := by
  obtain ⟨hl, hr⟩ := Prod.mk.inj hpair
  rw [examine_run, examine_run, hl, hr]
  cases infer pair'.1.clause pair'.2.clause with
  | none => exact .none
  | some res =>
    cases hf : res.fault with
    | some e =>
      simp only [Option.map_some, hf]
      exact .error (congrArg Report.ending ((h.record res).faultReport e))
    | none =>
      simp only [Option.map_some, hf]
      rw [← run_foldlM_some, ← run_foldlM_some]
      refine Capped.foldlM (p := id) (q := id) (fun s t c d hst hcd ↦ ?_) rfl (h.record res)
      obtain rfl : c = d := hcd
      exact capped_absorb hl hr hst

/-- Where a limit is looked at, the tighter one stops the search at least as early. -/
theorem capped_limit {i j : Option Nat} {m m' : Nat} (hij : Config.LimitLe i j) (hm : m = m')
    (h : SameClauses st st') :
    Capped SameClauses (some (if Config.exceeds m i then .error st.limitReport else .ok st))
      (some (if Config.exceeds m' j then .error st'.limitReport else .ok st')) := by
  subst hm
  split
  · exact .limit ⟨_, _, rfl⟩
  · rename_i hlimit
    rw [if_neg fun hj ↦ hlimit (Config.exceeds_of_limitLe hij hj)]
    exact .ok h

section

variable (hab : a.Tighter b)

include hab

/-- Both searches count the round before its limit is tested. -/
theorem capped_begin (h : SameClauses st st') :
    Capped SameClauses (some (st.begin a)) (some (st'.begin b)) := by
  simp only [begin]
  refine capped_limit hab.maxRounds (by rw [h.stats]) ?_
  exact ⟨h.settled, h.recent, h.fresh, by rw [h.stats], h.events⟩

/-- Both have found the same, so they saturate together; otherwise the limit is tested. -/
theorem capped_finish (h : SameClauses st st') :
    Capped SameClauses (some (st.finish a)) (some (st'.finish b)) := by
  have hlog : SameClauses (st.log (.roundFinished st.stats.rounds st.known.length st.fresh.length))
      (st'.log (.roundFinished st'.stats.rounds st'.known.length st'.fresh.length)) := by
    rw [h.stats, h.length_known, h.length_fresh]
    exact h.log _
  simp only [finish]
  generalize st.log _ = u at hlog
  generalize st'.log _ = u' at hlog
  rw [hlog.isEmpty_fresh]
  split
  · exact .error (congrArg Report.ending hlog.saturatedReport)
  · have hnext : SameClauses { u with settled := u.known, recent := u.fresh, fresh := [] }
        { u' with settled := u'.known, recent := u'.fresh, fresh := [] } :=
      ⟨hlog.known, hlog.fresh, rfl, hlog.stats, hlog.events⟩
    exact capped_limit hab.maxClauses hnext.length_known hnext

/-- One round of each search: the tighter one stops at a limit, or they stay in step or end
together. -/
theorem capped_round (h : SameClauses st st') :
    Capped SameClauses (st.round infer a).run (st'.round infer b).run := by
  refine Capped.bind (x := ExceptT.mk (some (st.begin a))) (y := ExceptT.mk (some (st'.begin b)))
    (capped_begin hab h) fun st₁ st₁' h₁ ↦ Capped.bind ?_ fun st₂ st₂' h₂ ↦ capped_finish hab h₂
  exact Capped.foldlM (fun _ _ _ _ ↦ capped_examine) h₁.newPairs h₁

end

end Search

/-! ### Searches under tighter limits -/

/-- The first search answers whenever the second one does. It ends at a limit, or the second one
answers as well and ends like it. -/
structure EndsWithin (x y : Budgeted Report) : Prop where
  of_left : ∀ r, x = some r → r.IsLimit ∨ ∃ r', y = some r' ∧ r.ending = r'.ending
  of_right : ∀ r', y = some r' → ∃ r, x = some r ∧ (r.IsLimit ∨ r.ending = r'.ending)

theorem EndsWithin.no_answer : EndsWithin none none where
  of_left _ h := absurd h (Option.some_ne_none _).symm
  of_right _ h := absurd h (Option.some_ne_none _).symm

theorem EndsWithin.of_ending {r r' : Report} (h : r.ending = r'.ending) :
    EndsWithin (some r) (some r') where
  of_left _ hr := .inr ⟨r', rfl, Option.some.inj hr ▸ h⟩
  of_right _ hr := ⟨r, rfl, .inr (Option.some.inj hr ▸ h)⟩

variable {infer : Clause → Clause → Budgeted Resolution} {a b : Config}

/-- By induction on the rounds, with the states of the two searches general. -/
theorem Search.endsWithin_saturate (hab : a.Tighter b) {st st' : Search}
    (h : SameClauses st st') (n : Nat) :
    EndsWithin (saturate infer a n st) (saturate infer b n st') := by
  induction n generalizing st st' with
  | zero => exact .no_answer
  | succ n ih =>
    have hround : Capped SameClauses (st.round infer a).run (st'.round infer b).run :=
      capped_round hab h
    rw [saturate, saturate]
    generalize (st.round infer a).run = x at hround
    generalize (st'.round infer b).run = y at hround
    cases hround with
    | limit hr =>
      exact ⟨fun _ h ↦ .inl (Option.some.inj h ▸ hr), fun _ _ ↦ ⟨_, rfl, .inl hr⟩⟩
    | none => exact .no_answer
    | error hr => exact .of_ending hr
    | ok h₁ => exact ih h₁

/-- The same for searches from the beginning, under any rule. -/
theorem endsWithin_refuteWith (hab : a.Tighter b) (n : Nat) (clauses : List Clause) :
    EndsWithin (refuteWith infer a n clauses) (refuteWith infer b n clauses) := by
  unfold refuteWith
  dsimp only
  split
  · exact .of_ending rfl
  · exact Search.endsWithin_saturate hab (.refl _) n

/-- **Limits and recording never change what is found.** Let each limit of `a` be at most the same
limit of `b`. Within the same budget, the search under `a` ends at a limit, or both searches have an
answer and it is the same but for the steps of a derivation before the last one; where the search
under `b` has an answer, the search under `a` has one, too, and it is a limit if the former is. -/
theorem refute_of_tighter (hab : a.Tighter b) (n : Nat) (clauses : List Clause) :
    (∀ r, refute n a clauses = some r →
      r.IsLimit ∨ ∃ r', refute n b clauses = some r' ∧ r.ending = r'.ending) ∧
    (∀ r', refute n b clauses = some r' →
      ∃ r, refute n a clauses = some r ∧ (r.IsLimit ∨ r.ending = r'.ending)) ∧
    ∀ r', refute n b clauses = some r' → r'.IsLimit →
      ∃ r, refute n a clauses = some r ∧ r.IsLimit := by
  obtain ⟨hleft, hright⟩ : EndsWithin (refute n a clauses) (refute n b clauses) :=
    endsWithin_refuteWith hab n clauses
  refine ⟨hleft, hright, fun r' hr' hlimit ↦ ?_⟩
  obtain ⟨r, hr, h⟩ := hright r' hr'
  exact ⟨r, hr, h.elim id fun hending ↦ .of_ending_eq hending hlimit⟩

/-- The clauses `p(a)`, `¬p(x) ∨ q(x)` and `¬q(a)` are refuted in the second round. A search of at
most two rounds and six clauses that records no parents reports the last of the two steps only, and
ends like the search without limits. -/
theorem refute_of_tighter_chain :
    let clauses := [.ofLists [.app "p" [.const (.symbol "a")]] [],
      .ofLists [.app "q" [.var "x" 0]] [.app "p" [.var "x" 0]],
      .ofLists [] [.app "q" [.const (.symbol "a")]]]
    let config : Config := { maxRounds := some 2, maxClauses := some 6, recordDerivation := false }
    config.Tighter {} ∧ ∃ r d s, refute 3 config clauses = some r ∧
      r.result = .ok (.refuted d s) ∧ d.length = 1 ∧
      ∃ r', refute 3 {} clauses = some r' ∧ r.ending = r'.ending := by
  intro clauses config
  have htighter : config.Tighter {} := ⟨fun _ h ↦ (nomatch h), fun _ h ↦ (nomatch h)⟩
  have hrun : ((refute 3 config clauses).bind fun r ↦
      match r.result with
      | .ok (.refuted d _) => some d.length
      | _ => none) = some 1 := by decide +kernel
  obtain ⟨r, hr, hrun⟩ := Option.bind_eq_some_iff.1 hrun
  split at hrun
  · rename_i d s hresult
    obtain ⟨hleft, -⟩ := refute_of_tighter htighter 3 clauses
    refine ⟨htighter, r, d, s, hr, hresult, Option.some.inj hrun, (hleft r hr).resolve_left ?_⟩
    rintro ⟨rounds, count, hlimit⟩
    rw [hresult] at hlimit
    cases hlimit
  · cases hrun

end OffsetLogic
