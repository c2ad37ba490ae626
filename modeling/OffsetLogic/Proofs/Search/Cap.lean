import OffsetLogic.Proofs.Search.Known

/-!
# Limits along a run

The two limits of a search are looked at in one place each: that of rounds before a round begins,
and that of clauses after a round has ended and only **if it has found something**. What a run keeps
between these places is the invariant `Search.Paced`: how many rounds are finished, and how many
clauses are known then.

So the limit of clauses bounds what a search knows when it goes on, and not all that it may answer
with (`not_forall_clausesRetained_le`). The clauses given may be more than it allows, and a search
that saturates or is refuted in its first round has not looked at it yet; and a refutation counts
what its last round has found. `clausesRetained_le` says how far the limit does hold.

## Rounds are counted by what is told

A report has no list of its rounds, but each round that is finished leaves one event, with its
number, the clauses known before it and those found in it. `finishedRounds` are these events, and
they are what the invariant counts, so that it can be read off a report alone. The counter of rounds
is one ahead of them within a round, and agrees with them between two rounds
(`Search.Reached.paced`, `Search.Ready.paced`).

## What each ending reads off

A saturated search has finished its last round with nothing found, and the limit was not tested
after it; the bound is that of the round before, and if there was none, the number of clauses given.
A refuted search has not finished its last round: what it found in it is bounded by nothing, and the
statement only says that it is counted, and counted once. A search that stops at the limit of
clauses has finished that round, and the event of this round is where its number comes from.
-/

namespace OffsetLogic

/-- A limit is kept by reaching it; only what is beyond it exceeds it. -/
theorem Config.exceeds_eq_false_iff {count m : Nat} :
    exceeds count (some m) = false ↔ count ≤ m :=
  decide_eq_false_iff_not.trans Nat.not_lt

/-! ### Finished rounds -/

/-- The event tells of the end of a round. -/
def Event.isRoundFinished : Event → Bool
  | roundFinished .. => true
  | _ => false

/-- The ends of rounds among some events. -/
def finishedRounds (events : Array Event) : List Event := events.toList.filter Event.isRoundFinished

@[simp] theorem finishedRounds_push (events : Array Event) (e : Event) :
    finishedRounds (events.push e) =
      finishedRounds events ++ if e.isRoundFinished then [e] else [] := by
  simp [finishedRounds, List.filter_cons]

/-- No round ends while a pair is resolved. -/
@[simp] theorem finishedRounds_append (events : Array Event) (r : Resolution) :
    finishedRounds (events ++ r.events) = finishedRounds events := by
  have hnone : r.events.filter Event.isRoundFinished = [] := by
    refine List.filter_eq_nil_iff.2 fun e he ↦ ?_
    obtain ⟨i, -, rfl⟩ := List.mem_map.1 he
    exact Bool.false_ne_true
  rw [finishedRounds, Array.toList_appendList, List.filter_append, hnone, List.append_nil]
  rfl

namespace Search

variable {infer : Clause → Clause → Budgeted Resolution} {config : Config}
variable {clauses : List Clause} {st st' : Search} {pair : ProofTree × ProofTree}
variable {todo : List (ProofTree × ProofTree)} {report : Report} {k m r : Nat}

/-- Examining a pair leaves what is known, and ends no round. -/
theorem finishedRounds_examine (h : (st.examine infer config pair).run = some (.ok st')) :
    st'.known = st.known ∧ st'.stats.rounds = st.stats.rounds ∧
      finishedRounds st'.events = finishedRounds st.events := by
  obtain ⟨res, -, -, hfold⟩ := examine_eq_ok h
  obtain ⟨-, rfl⟩ := foldlM_absorb_eq_ok res.nodup_resolvents hfold
  exact ⟨rfl, rfl, finishedRounds_append st.events res⟩

/-- A pair that ends the search ends it within its round, which is not finished. -/
theorem finishedRounds_examine_error
    (h : (st.examine infer config pair).run = some (.error report)) :
    report.stats.rounds = st.stats.rounds ∧
      finishedRounds report.events = finishedRounds st.events := by
  obtain ⟨res, -, ⟨e, -, rfl⟩ | ⟨-, hfold⟩⟩ := examine_eq_error h
  · exact ⟨rfl, finishedRounds_append st.events res⟩
  · obtain ⟨c, rest, st₁, ⟨hrounds, hevents⟩, he⟩ := foldlM_error_induction
      (I := fun _ st₁ ↦ st₁.stats.rounds = st.stats.rounds ∧
        st₁.events = st.events ++ res.events) hfold ⟨rfl, rfl⟩
      fun c rest st₁ st₂ hst₁ habsorb ↦ by
        obtain ⟨-, ⟨-, rfl⟩ | ⟨-, rfl⟩⟩ := absorb_eq_ok_iff.1 habsorb <;> exact hst₁
    obtain ⟨-, rfl⟩ := absorb_eq_error_iff.1 he
    refine ⟨hrounds, ?_⟩
    show finishedRounds (st₁.events.push _) = _
    rw [hevents, finishedRounds_push, finishedRounds_append]
    exact List.append_nil _

/-- The round that ends the search is finished with it. -/
theorem finishedRounds_finish_error (h : st.finish config = .error report) :
    report.stats.rounds = st.stats.rounds ∧
      finishedRounds report.events = finishedRounds st.events ++
        [.roundFinished st.stats.rounds st.known.length st.fresh.length] := by
  obtain ⟨-, rfl⟩ | ⟨-, -, rfl⟩ := finish_eq_error_iff.1 h
  · exact ⟨rfl, finishedRounds_push ..⟩
  · refine ⟨rfl, ?_⟩
    show finishedRounds ((st.events.push _).push _) = _
    rw [finishedRounds_push, finishedRounds_push]
    exact List.append_nil _

/-- The round that could not begin is counted and is not finished. -/
theorem finishedRounds_begin_error (h : st.begin config = .error report) :
    report.stats.rounds = st.stats.rounds + 1 ∧
      finishedRounds report.events = finishedRounds st.events := by
  obtain ⟨-, rfl⟩ := begin_eq_error_iff.1 h
  refine ⟨rfl, ?_⟩
  show finishedRounds (st.events.push _) = _
  rw [finishedRounds_push]
  exact List.append_nil _

/-! ### The invariant -/

/-- The state of a run when `k` rounds are finished. -/
structure Paced (config : Config) (clauses : List Clause) (st : Search) (k : Nat) : Prop where
  /-- So many ends of rounds were told. -/
  finished : (finishedRounds st.events).length = k
  /-- Each of these rounds has made known one clause at least. -/
  known : clauses.eraseDups.length + k ≤ st.known.length
  /-- Until then, what was given is known. -/
  given : k = 0 → st.known.length = clauses.eraseDups.length
  /-- After that, no more clauses are known than the limit allows. -/
  within : k ≠ 0 → Config.exceeds st.known.length config.maxClauses = false
  /-- After none of these rounds, more clauses were known than the limit allows. -/
  told : ∀ round known new, .roundFinished round known new ∈ finishedRounds st.events →
    Config.exceeds (known + new) config.maxClauses = false

theorem Paced.start (config : Config) (clauses : List Clause) :
    Paced config clauses (Search.start clauses) 0 where
  finished := rfl
  known := by simp [Search.known, Search.start, log]
  given _ := by simp [Search.known, Search.start, log]
  within h := absurd rfl h
  told _ _ _ h := nomatch h

/-- The invariant only looks at what is known and at the rounds that were told of. -/
theorem Paced.congr (h : Paced config clauses st k) (hknown : st'.known = st.known)
    (hevents : finishedRounds st'.events = finishedRounds st.events) :
    Paced config clauses st' k := by
  constructor
  · exact hevents ▸ h.finished
  · exact hknown ▸ h.known
  · exact hknown ▸ h.given
  · exact hknown ▸ h.within
  · exact hevents ▸ h.told

/-- A round that goes on has found something and has kept the limit, so all parts of the invariant
hold with one more round. -/
theorem Paced.finish (h : Paced config clauses st k) (hf : st.finish config = .ok st') :
    Paced config clauses st' (k + 1) := by
  obtain ⟨hfresh, hlimit, rfl⟩ := finish_eq_ok_iff.1 hf
  have hpos := List.length_pos_iff.2 hfresh
  have hknown := h.known
  have hevents : finishedRounds st.advance.events = finishedRounds st.events ++
      [.roundFinished st.stats.rounds st.known.length st.fresh.length] := finishedRounds_push ..
  have htrees : st.advance.known.length = st.known.length + st.fresh.length := List.length_append
  constructor
  · rw [hevents, List.length_append, h.finished]
    rfl
  · omega
  · exact fun hk ↦ absurd hk (Nat.succ_ne_zero k)
  · exact fun _ ↦ hlimit
  · intro round known new he
    rcases List.mem_append.1 (hevents ▸ he) with he | he
    · exact h.told round known new he
    · cases List.mem_singleton.1 he
      exact htrees ▸ hlimit

/-- In a round, the rounds before it are finished, and it is within the limit. -/
theorem Reached.paced (h : Reached infer config clauses st todo) :
    ∃ k, st.stats.rounds = k + 1 ∧ Config.exceeds (k + 1) config.maxRounds = false ∧
      Paced config clauses st k := by
  induction h with
  | start hempty hb =>
    obtain ⟨hlimit, rfl⟩ := begin_eq_ok_iff.1 hb
    exact ⟨0, rfl, hlimit, (Paced.start config clauses).congr rfl rfl⟩
  | examine _ he ih =>
    obtain ⟨k, hk, hlimit, hpaced⟩ := ih
    obtain ⟨hknown, hrounds, hevents⟩ := finishedRounds_examine he
    exact ⟨k, hrounds.trans hk, hlimit, hpaced.congr hknown hevents⟩
  | @next st st₁ _ _ hf hb ih =>
    obtain ⟨k, hk, -, hpaced⟩ := ih
    obtain ⟨hlimit, rfl⟩ := begin_eq_ok_iff.1 hb
    have hk₁ : st₁.stats.rounds = k + 1 := by
      obtain ⟨-, -, rfl⟩ := finish_eq_ok_iff.1 hf
      exact hk
    rw [hk₁] at hlimit
    exact ⟨k + 1, congrArg (· + 1) hk₁, hlimit, (hpaced.finish hf).congr rfl rfl⟩

/-- Between two rounds, all rounds that were begun are finished, and they are within the limit. -/
theorem Ready.paced (h : Ready infer config clauses st) :
    Paced config clauses st st.stats.rounds ∧
      Config.exceeds st.stats.rounds config.maxRounds = false := by
  cases h with
  | start hempty => exact ⟨.start config clauses, by cases config.maxRounds <;> rfl⟩
  | next hreach hf =>
    obtain ⟨k, hk, hlimit, hpaced⟩ := hreach.paced
    have hnext := hpaced.finish hf
    obtain ⟨-, -, rfl⟩ := finish_eq_ok_iff.1 hf
    have hrounds : (advance _).stats.rounds = k + 1 := hk
    rw [hrounds]
    exact ⟨hnext, hlimit⟩

/-- There are no more finished rounds than clauses that the limit left room for. -/
theorem Paced.le_of_maxClauses (h : Paced config clauses st k) (hm : config.maxClauses = some m) :
    k ≤ m - clauses.eraseDups.length := by
  rcases Nat.eq_zero_or_pos k with rfl | hk
  · exact Nat.zero_le _
  · have hknown := h.known
    have hwithin := h.within (Nat.ne_of_gt hk)
    rw [hm, Config.exceeds_eq_false_iff] at hwithin
    omega

/-- No more clauses are known than the limit allows, or only what was given is. -/
theorem Paced.length_known_le (h : Paced config clauses st k) (hm : config.maxClauses = some m) :
    st.known.length ≤ m ∨ st.known.length = clauses.eraseDups.length ∧ k = 0 := by
  rcases Nat.eq_zero_or_pos k with hk | hk
  · exact .inr ⟨h.given hk, hk⟩
  · have hwithin := h.within (Nat.ne_of_gt hk)
    rw [hm, Config.exceeds_eq_false_iff] at hwithin
    exact .inl hwithin

/-! ### What the limit of clauses bounds -/

/-- A refutation by a pair counts what is known, and what was found in its round. -/
theorem Consistent.exists_found {derivation : Derivation} {stats : Stats}
    (hc : Consistent infer config clauses st (pair :: todo))
    (h : (st.examine infer config pair).run = some (.error report))
    (hresult : report.result = .ok (.refuted derivation stats)) : ∃ found : List Clause,
      (st.known.map ProofTree.clause ++ found).Nodup ∧
      stats.clausesRetained = st.known.length + found.length ∧
      stats.rounds = st.stats.rounds := by
  obtain ⟨res, -, ⟨e, -, rfl⟩ | ⟨-, hfold⟩⟩ := examine_eq_error h
  · cases hresult
  · obtain ⟨c, rest, st₁, ⟨hknown, hrounds, hnodup⟩, he⟩ := foldlM_error_induction
      (I := fun _ st₁ ↦ st₁.known = st.known ∧ st₁.stats.rounds = st.stats.rounds ∧
        (st₁.trees.map ProofTree.clause).Nodup) hfold ⟨rfl, rfl, hc.nodup⟩
      fun c rest st₁ st₂ ⟨hknown, hrounds, hnodup⟩ habsorb ↦ by
        obtain ⟨-, ⟨-, rfl⟩ | ⟨hnew, rfl⟩⟩ := absorb_eq_ok_iff.1 habsorb
        · exact ⟨hknown, hrounds, hnodup⟩
        · refine ⟨hknown, hrounds, ?_⟩
          have hc : c ∉ st₁.trees.map ProofTree.clause := by
            rw [← contains_iff, hnew]
            exact Bool.false_ne_true
          have htrees : (st₁.known ++ (st₁.fresh ++ [node config pair.1 pair.2 c])).map
              ProofTree.clause = st₁.trees.map ProofTree.clause ++ [c] := by
            simp [trees]
          refine htrees ▸ List.nodup_append.2 ⟨hnodup, List.pairwise_singleton _ c, ?_⟩
          rintro d hd _ he rfl
          exact hc (List.mem_singleton.1 he ▸ hd)
    obtain ⟨-, rfl⟩ := absorb_eq_error_iff.1 he
    cases hresult
    refine ⟨st₁.fresh.map ProofTree.clause, ?_, ?_, hrounds⟩
    · rw [← hknown, ← List.map_append]
      exact hnodup
    · rw [List.length_map, ← hknown]

/-- A search saturates within the limit of clauses, or in its first round on what was given. -/
theorem Ended.retained_of_saturated {k : Nat} {stats : Stats}
    (h : Ended infer config clauses report) (hm : config.maxClauses = some m)
    (hresult : report.result = .ok (.saturated k stats)) :
    stats.clausesRetained = k ∧ (k ≤ m ∨ k = clauses.eraseDups.length ∧ stats.rounds = 1) := by
  cases h with
  | emptyInput => cases hresult
  | examine _ he => exact absurd hresult (ne_saturated_of_examine he)
  | @finish st _ hreach he =>
    obtain ⟨i, hrounds, -, hpaced⟩ := hreach.paced
    obtain ⟨-, rfl⟩ | ⟨-, -, rfl⟩ := finish_eq_error_iff.1 he
    · cases hresult
      refine ⟨rfl, (hpaced.length_known_le hm).imp_right fun ⟨hknown, hi⟩ ↦ ⟨hknown, ?_⟩⟩
      show st.stats.rounds = 1
      rw [hrounds, hi]
    · cases hresult
  | begin _ hb =>
    obtain ⟨-, rfl⟩ := begin_eq_error_iff.1 hb
    cases hresult

/-- When a search is refuted, what it knew is within the limit of clauses, or what was given. -/
theorem Ended.retained_of_refuted {derivation : Derivation} {stats : Stats}
    (h : Ended infer config clauses report) (hm : config.maxClauses = some m)
    (hresult : report.result = .ok (.refuted derivation stats)) :
    ∅ ∈ clauses ∧ stats.clausesRetained = clauses.eraseDups.length ∨
      ∃ st pair todo, Reached infer config clauses st (pair :: todo) ∧
        (st.examine infer config pair).run = some (.error report) ∧
        (st.known.length ≤ m ∨ st.known.length = clauses.eraseDups.length ∧ stats.rounds = 1) ∧
        ∃ found : List Clause, (st.known.map ProofTree.clause ++ found).Nodup ∧
          stats.clausesRetained = st.known.length + found.length := by
  cases h with
  | emptyInput hempty =>
    cases hresult
    obtain ⟨c, hc, hce⟩ := List.any_eq_true.1 hempty
    exact .inl ⟨Clause.isEmpty_iff.1 hce ▸ hc, List.length_map _⟩
  | @examine st pair todo _ hreach he =>
    obtain ⟨i, hrounds, -, hpaced⟩ := hreach.paced
    obtain ⟨found, hnodup, hretained, hstats⟩ := hreach.consistent.exists_found he hresult
    have hknown : st.known.length ≤ m ∨
        st.known.length = clauses.eraseDups.length ∧ stats.rounds = 1 :=
      (hpaced.length_known_le hm).imp_right fun ⟨hknown, hi⟩ ↦
        ⟨hknown, by rw [hstats, hrounds, hi]⟩
    exact .inr ⟨st, pair, todo, hreach, he, hknown, found, hnodup, hretained⟩
  | finish _ he =>
    obtain ⟨-, rfl⟩ | ⟨-, -, rfl⟩ := finish_eq_error_iff.1 he <;> cases hresult
  | begin _ hb =>
    obtain ⟨-, rfl⟩ := begin_eq_error_iff.1 hb
    cases hresult

/-- A round that has found something and leaves more clauses than the limit allows ends the search
at the limit. -/
theorem Ended.limit_of_told {round known new : Nat} (h : Ended infer config clauses report)
    (hm : config.maxClauses = some m)
    (htold : .roundFinished round known new ∈ finishedRounds report.events) (hnew : new ≠ 0)
    (hlt : m < known + new) : report.result = .error (.limit round (known + new)) := by
  -- what was told before the run came to its end is within the limit
  have hbefore : ∀ {st k}, Paced config clauses st k →
      .roundFinished round known new ∉ finishedRounds st.events := by
    intro st k hpaced hmem
    have hle := hpaced.told round known new hmem
    rw [hm, Config.exceeds_eq_false_iff] at hle
    omega
  cases h with
  | emptyInput => cases htold
  | examine hreach he =>
    obtain ⟨k, -, -, hpaced⟩ := hreach.paced
    exact absurd ((finishedRounds_examine_error he).2 ▸ htold) (hbefore hpaced)
  | @finish st _ hreach he =>
    obtain ⟨k, -, -, hpaced⟩ := hreach.paced
    rw [(finishedRounds_finish_error he).2] at htold
    rcases List.mem_append.1 htold with htold | htold
    · exact absurd htold (hbefore hpaced)
    · cases List.mem_singleton.1 htold
      obtain ⟨hfresh, rfl⟩ | ⟨-, -, rfl⟩ := finish_eq_error_iff.1 he
      · exact absurd (List.length_eq_zero_iff.2 hfresh) hnew
      · show Except.error (SearchError.limit st.stats.rounds st.trees.length) = _
        rw [trees, List.length_append]
  | begin hready hb =>
    exact absurd ((finishedRounds_begin_error hb).2 ▸ htold) (hbefore hready.paced.1)

end Search

/-- **The limit of clauses is looked at between rounds.** Let `m` be the limit. A saturated search
knows `m` clauses at most, unless it has saturated in its first round on what was given. A refuted
one knew `m` clauses at most when its last round began, unless that was the first one, and counts
what it found in it besides; or the empty clause was given. And when a round has found something and
leaves more than `m` clauses, the search ends at the limit and reports their number. -/
theorem clausesRetained_le {n m : Nat} {config : Config} {clauses : List Clause} {report : Report}
    (h : refute n config clauses = some report) (hm : config.maxClauses = some m) :
    (∀ k stats, report.result = .ok (.saturated k stats) → stats.clausesRetained = k ∧
      (k ≤ m ∨ k = clauses.eraseDups.length ∧ stats.rounds = 1)) ∧
    (∀ derivation stats, report.result = .ok (.refuted derivation stats) →
      ∅ ∈ clauses ∧ stats.clausesRetained = clauses.eraseDups.length ∨
      ∃ st pair todo, Search.Reached (resolve n) config clauses st (pair :: todo) ∧
        (st.examine (resolve n) config pair).run = some (.error report) ∧
        (st.known.length ≤ m ∨ st.known.length = clauses.eraseDups.length ∧ stats.rounds = 1) ∧
        ∃ found : List Clause, (st.known.map ProofTree.clause ++ found).Nodup ∧
          stats.clausesRetained = st.known.length + found.length) ∧
    ∀ round known new, .roundFinished round known new ∈ finishedRounds report.events → new ≠ 0 →
      m < known + new → report.result = .error (.limit round (known + new)) :=
  have hended := Search.ended_of_refuteWith h
  ⟨fun _ _ ↦ hended.retained_of_saturated hm, fun _ _ ↦ hended.retained_of_refuted hm,
    fun _ _ _ ↦ hended.limit_of_told hm⟩

/-- The clauses `p(0)` and `¬p(x) ∨ p(x + 1)` with a limit of three: the second round finds `p(2)`
as the fourth clause, so the search ends at the limit. -/
theorem clausesRetained_le_count : ∃ report, refute 3 { maxClauses := some 3 }
      [.ofLists [.app "p" [.const (.int 0)]] [],
        .ofLists [.app "p" [.var "x" 1]] [.app "p" [.var "x" 0]]] = some report ∧
    .roundFinished 2 3 1 ∈ finishedRounds report.events ∧
    report.result = .error (.limit 2 4) := by
  have hrun : ((refute 3 { maxClauses := some 3 } [.ofLists [.app "p" [.const (.int 0)]] [],
      .ofLists [.app "p" [.var "x" 1]] [.app "p" [.var "x" 0]]]).map fun report ↦
        (finishedRounds report.events).any fun
          | .roundFinished 2 3 1 => true
          | _ => false) = some true := by decide +kernel
  obtain ⟨report, h, hrun⟩ := Option.map_eq_some_iff.1 hrun
  obtain ⟨e, he, htold⟩ := List.any_eq_true.1 hrun
  split at htold
  · obtain ⟨-, -, hlimit⟩ := clausesRetained_le (m := 3) h rfl
    exact ⟨report, h, he, hlimit 2 3 1 he (by decide) (by decide)⟩
  · cases htold

/-- The two unrelated clauses `p` and `q` saturate with a limit of one. -/
theorem not_forall_clausesRetained_le :
    ¬ ∀ (n m : Nat) (config : Config) (clauses : List Clause) (report : Report),
      refute n config clauses = some report → config.maxClauses = some m →
      (∀ verdict, report.result = .ok verdict → verdict.stats.clausesRetained ≤ m) ∧
      (m < clauses.eraseDups.length →
        ∃ rounds count, report.result = .error (.limit rounds count)) := by
  intro hall
  have hrun : ((refute 1 { maxClauses := some 1 } [.ofLists [.app "p" []] [],
      .ofLists [.app "q" []] []]).bind fun report ↦
        match report.result with
        | .ok verdict => some verdict.stats.clausesRetained
        | .error _ => none) = some 2 := by decide +kernel
  obtain ⟨report, h, hrun⟩ := Option.bind_eq_some_iff.1 hrun
  split at hrun
  · rename_i verdict hresult
    have hle := (hall 1 1 _ _ report h rfl).1 verdict hresult
    rw [Option.some.inj hrun] at hle
    exact absurd hle (by decide)
  · cases hrun

end OffsetLogic
