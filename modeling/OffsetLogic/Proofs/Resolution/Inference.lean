import Mathlib.Data.Nat.Choose.Basic
import OffsetLogic.Resolution

/-!
# What an inference did

Factoring and resolution are computed in layers: within a budget, up to an error, and only if there
is a unifier. Here the layers are taken off once. `Factored` is the derivation of a factored clause,
one merging at a time, and `Clash.infer?_eq_ok_some` lists the steps of an inference. An inference
from two clauses comes from one of their clashes (`exists_of_mem_inferFrom`), and when no error cuts
it short, resolving them draws the inferences from **all their clashes**
(`infer?_of_mem_inferFrom`).

**Later modules cite these and do not unfold the computations.** For each stage there is an equation
that says what it computes in terms of the stages before (`merge?_run`, `infer?_run`,
`inferFrom_cons`), and from it, for each way in which the stage can end, what must have happened: a
success, a failure, an error. The equations are for lemmas about the budget, where two computations
are compared stage by stage; the inversions are for everything else.

`Factored` is an inductive relation beside the recursion, because facts about factoring are proved
by induction on what was done, and the recursion of `factor` is on the size of the clause. It
remembers that the pairs before the merged one were passed over, which matters where the order of
the pairs does, and that at the end all pairs were. It does not say that factoring answers; a
unifier may be out of the budget, and applying it may fail.

The lemmas about pairs and about the first success of a list are here because factoring, clashes and
searches all go through pairs in order.
-/

namespace OffsetLogic

/-! ### Pairs of a list -/

/-- The members of a pair of a list are members of the list. -/
theorem mem_of_mem_orderedPairs {α : Type} {l : List α} {e : α × α} (h : e ∈ orderedPairs l) :
    e.1 ∈ l ∧ e.2 ∈ l := by
  induction l with
  | nil => cases h
  | cons a l ih =>
    rcases List.mem_append.1 h with h | h
    · obtain ⟨b, hb, rfl⟩ := List.mem_map.1 h
      exact ⟨List.mem_cons_self, List.mem_cons_of_mem a hb⟩
    · exact ⟨List.mem_cons_of_mem a (ih h).1, List.mem_cons_of_mem a (ih h).2⟩

/-- The members of a pair of a list without repetition are different. -/
theorem ne_of_mem_orderedPairs {α : Type} {l : List α} (hl : l.Nodup) {e : α × α}
    (h : e ∈ orderedPairs l) : e.1 ≠ e.2 := by
  induction l with
  | nil => cases h
  | cons a l ih =>
    obtain ⟨ha, hl⟩ := List.nodup_cons.1 hl
    rcases List.mem_append.1 h with h | h
    · obtain ⟨b, hb, rfl⟩ := List.mem_map.1 h
      exact fun (hab : a = b) ↦ ha (hab ▸ hb)
    · exact ih hl h

/-- There is one pair for each choice of two places. -/
theorem length_orderedPairs {α : Type} (l : List α) :
    (orderedPairs l).length = l.length.choose 2 := by
  induction l with
  | nil => rfl
  | cons a l ih =>
    rw [orderedPairs, List.length_append, List.length_map, ih, List.length_cons,
      Nat.choose_succ_succ', Nat.choose_one_right]

theorem map_orderedPairs {α β : Type} (f : α → β) (l : List α) :
    (orderedPairs l).map (Prod.map f f) = orderedPairs (l.map f) := by
  induction l with
  | nil => rfl
  | cons a l ih => simp [orderedPairs, ih, Function.comp_def]

/-- A list without repetition has each pair once. -/
theorem nodup_orderedPairs {α : Type} {l : List α} (hl : l.Nodup) : (orderedPairs l).Nodup := by
  induction l with
  | nil => exact List.nodup_nil
  | cons a l ih =>
    obtain ⟨ha, hl⟩ := List.nodup_cons.1 hl
    have hfirst : (l.map (a, ·)).Nodup :=
      List.Pairwise.map (a, ·) (fun _ _ hne heq ↦ hne (congrArg Prod.snd heq)) hl
    refine List.nodup_append.2 ⟨hfirst, ih hl, ?_⟩
    rintro e he e' he' rfl
    obtain ⟨b, -, rfl⟩ := List.mem_map.1 he
    exact ha (mem_of_mem_orderedPairs he').1

theorem SortedSet.nodup_toList {α : Type} [Ord α] [Std.LawfulEqOrd α] (s : SortedSet α) :
    s.toList.Nodup :=
  s.ascending.imp fun h hab ↦ by simp [hab] at h

/-! ### The first success of a list -/

/-- The first success of a search through a list comes after failures only. -/
theorem findSomeM?_eq_ok_some {α β ε : Type} {f : α → ExceptT ε Budgeted (Option β)} {l : List α}
    {b : β} (h : (l.findSomeM? f).run = some (.ok (some b))) :
    ∃ pre a post, l = pre ++ a :: post ∧ (∀ a' ∈ pre, (f a').run = some (.ok none)) ∧
      (f a).run = some (.ok (some b)) := by
  induction l with
  | nil => cases h
  | cons a l ih =>
    rw [List.findSomeM?, ExceptT.run_bind] at h
    obtain ⟨r, hr, h⟩ := Option.bind_eq_some_iff.1 h
    obtain e | b? := r
    · cases h
    · cases b? with
      | some b' =>
        cases h
        exact ⟨[], a, l, rfl, by simp, hr⟩
      | none =>
        obtain ⟨pre, a', post, rfl, hpre, ha'⟩ := ih h
        refine ⟨a :: pre, a', post, rfl, ?_, ha'⟩
        simpa [hr] using hpre

/-- A search through a list fails when all its members do. -/
theorem findSomeM?_eq_ok_none_iff {α β ε : Type} {f : α → ExceptT ε Budgeted (Option β)}
    {l : List α} :
    (l.findSomeM? f).run = some (.ok none) ↔ ∀ a ∈ l, (f a).run = some (.ok none) := by
  induction l with
  | nil => simp [List.findSomeM?]
  | cons a l ih =>
    rw [List.findSomeM?, ExceptT.run_bind, List.forall_mem_cons]
    constructor
    · intro h
      obtain ⟨r, hr, h⟩ := Option.bind_eq_some_iff.1 h
      obtain e | b? := r
      · cases h
      · cases b? with
        | some b' => cases h
        | none => exact ⟨hr, ih.1 h⟩
    · rintro ⟨ha, hl⟩
      rw [ha]
      exact ih.2 hl

/-- A search through a list meets an error at one of its members. -/
theorem exists_of_findSomeM?_eq_error {α β ε : Type} {f : α → ExceptT ε Budgeted (Option β)}
    {l : List α} {e : ε} (h : (l.findSomeM? f).run = some (.error e)) :
    ∃ a ∈ l, (f a).run = some (.error e) := by
  induction l with
  | nil => cases h
  | cons a l ih =>
    rw [List.findSomeM?, ExceptT.run_bind] at h
    obtain ⟨r, hr, h⟩ := Option.bind_eq_some_iff.1 h
    obtain e' | b? := r
    · cases h
      exact ⟨a, List.mem_cons_self, hr⟩
    · cases b? with
      | some b => cases h
      | none =>
        obtain ⟨a', ha', h⟩ := ih h
        exact ⟨a', List.mem_cons_of_mem a ha', h⟩

theorem exists_of_anyM_eq_true {α : Type} {f : α → Budgeted Bool} {l : List α}
    (h : l.anyM f = some true) : ∃ a ∈ l, f a = some true := by
  induction l with
  | nil => cases h
  | cons a l ih =>
    rw [List.anyM] at h
    obtain ⟨b, hb, h⟩ := Option.bind_eq_some_iff.1 h
    cases b with
    | true => exact ⟨a, List.mem_cons_self, hb⟩
    | false =>
      obtain ⟨a', ha', hf⟩ := ih h
      exact ⟨a', List.mem_cons_of_mem a ha', hf⟩

namespace Clause

variable {n : Nat} {c d : Clause} {e : Term × Term}

/-- A tautological clause has a positive and a negated literal with a unifier. -/
theorem exists_mgu?_of_isTautological (h : c.isTautological n = some true) :
    ∃ p ∈ c.pos, ∃ q ∈ c.neg, ∃ s, mgu? n p q = some (some s) := by
  obtain ⟨p, hp, h⟩ := exists_of_anyM_eq_true h
  obtain ⟨q, hq, h⟩ := exists_of_anyM_eq_true h
  obtain ⟨s?, hs, hsome⟩ := Option.map_eq_some_iff.1 h
  obtain ⟨s, rfl⟩ := Option.isSome_iff_exists.1 hsome
  exact ⟨p, SortedSet.mem_toList.1 hp, q, SortedSet.mem_toList.1 hq, s, hs⟩

/-! ### Factoring -/

/-- What merging a pair computes, with its budget and its errors in the open. -/
theorem merge?_run (n : Nat) (c : Clause) (e : Term × Term) :
    (c.merge? n e).run = (mgu? n e.1 e.2).bind fun
      | none => some (.ok none)
      | some s =>
        match c.apply s with
        | .error err => some (.error err)
        | .ok d => some (.ok (if h : d.size < c.size then some ⟨d, h⟩ else none)) := by
  rw [merge?]
  cases mgu? n e.1 e.2 with
  | none => rfl
  | some s? =>
    cases s? with
    | none => rfl
    | some s =>
      show ExceptT.run ((liftM (c.apply s) : ExceptT ShiftError Budgeted Clause) >>= _) = _
      dsimp only [Option.bind_some]
      cases c.apply s <;> rfl

/-- A merged pair has a unifier, and the merged clause is what it gives. -/
theorem merge?_eq_ok_some {d : { d : Clause // d.size < c.size }}
    (h : (c.merge? n e).run = some (.ok (some d))) :
    ∃ s, mgu? n e.1 e.2 = some (some s) ∧ c.apply s = .ok d.1 := by
  rw [merge?_run] at h
  obtain ⟨s?, hs, h⟩ := Option.bind_eq_some_iff.1 h
  cases s? with
  | none => cases h
  | some s =>
    dsimp only at h
    split at h
    · cases h
    · rename_i d' hd
      split at h
      · cases h
        exact ⟨s, hs, hd⟩
      · cases h

/-- A pair is passed over because its literals do not unify, or because their unifier does not make
the clause smaller. -/
theorem merge?_eq_ok_none (h : (c.merge? n e).run = some (.ok none)) :
    mgu? n e.1 e.2 = some none ∨
      ∃ s d, mgu? n e.1 e.2 = some (some s) ∧ c.apply s = .ok d ∧ c.size ≤ d.size := by
  rw [merge?_run] at h
  obtain ⟨s?, hs, h⟩ := Option.bind_eq_some_iff.1 h
  cases s? with
  | none => exact .inl hs
  | some s =>
    dsimp only at h
    split at h
    · cases h
    · rename_i d hd
      split at h
      · cases h
      · rename_i hlt
        exact .inr ⟨s, d, hs, hd, Nat.le_of_not_lt hlt⟩

/-- The pairs of literals of one sign, in the order in which they are tried. -/
def pairs (c : Clause) : List (Term × Term) :=
  orderedPairs c.pos.toList ++ orderedPairs c.neg.toList

/-- The members of a pair are literals of one sign. -/
theorem mem_of_mem_pairs (he : e ∈ c.pairs) :
    e.1 ∈ c.pos ∧ e.2 ∈ c.pos ∨ e.1 ∈ c.neg ∧ e.2 ∈ c.neg :=
  (List.mem_append.1 he).imp mem_of_mem_orderedPairs mem_of_mem_orderedPairs

/-- The members of a pair are different, since a set has no member twice. -/
theorem ne_of_mem_pairs (he : e ∈ c.pairs) : e.1 ≠ e.2 :=
  (List.mem_append.1 he).elim (ne_of_mem_orderedPairs (SortedSet.nodup_toList _))
    (ne_of_mem_orderedPairs (SortedSet.nodup_toList _))

/-- What a factoring did: the first pair whose merging makes the clause smaller was merged, as long
as there was one. -/
inductive Factored (n : Nat) : Clause → Clause → Prop where
  /-- No merging makes the clause smaller. -/
  | done {c : Clause} : (∀ e ∈ c.pairs, (c.merge? n e).run = some (.ok none)) → Factored n c c
  /-- A pair is merged. -/
  | merge {c d d' : Clause} {s : Substitution} {pre post : List (Term × Term)} {e : Term × Term} :
      c.pairs = pre ++ e :: post → (∀ e' ∈ pre, (c.merge? n e').run = some (.ok none)) →
      mgu? n e.1 e.2 = some (some s) → c.apply s = .ok d → d.size < c.size → Factored n d d' →
      Factored n c d'

/-- What `factor` answers was factored step by step. The recursion is on the size, and each merge
makes it smaller. -/
theorem factored_of_factor {c d : Clause} (h : (c.factor n).run = some (.ok d)) :
    Factored n c d := by
  rw [factor, ExceptT.run_bind] at h
  obtain ⟨r, hr, h⟩ := Option.bind_eq_some_iff.1 h
  obtain err | e? := r
  · cases h
  · cases e? with
    | none =>
      cases h
      exact .done (findSomeM?_eq_ok_none_iff.1 hr)
    | some e =>
      obtain ⟨pre, e', post, hpairs, hpre, he⟩ := findSomeM?_eq_ok_some hr
      obtain ⟨s, hs, hd⟩ := merge?_eq_ok_some he
      have h : (e.1.factor n).run = some (.ok d) := h
      exact .merge hpairs hpre hs hd e.2 (factored_of_factor h)
termination_by c.size
decreasing_by exact e.2

/-- When factoring ends, every pair that is left has been passed over. -/
theorem Factored.merge?_eq_none (h : c.Factored n d) :
    ∀ e ∈ d.pairs, (d.merge? n e).run = some (.ok none) := by
  induction h with
  | done hnone => exact hnone
  | merge _ _ _ _ _ _ ih => exact ih

end Clause

/-! ### Inferences -/

section Inference

variable {n : Nat} {k : Clash} {ks : List Clash} {i : Inference} {r : Resolution}

/-- What resolving a clash computes, with its budget and its errors in the open. -/
theorem Clash.infer?_run (n : Nat) (k : Clash) :
    (k.infer? n).run = (mgu? n k.positive k.negated).bind fun
      | none => some (.ok none)
      | some s =>
        match k.remainder.apply s with
        | .error e => some (.error e)
        | .ok c => (c.factor n).run.bind fun
          | .error e => some (.error e)
          | .ok d => (d.canonicalize.isTautological n).map fun b ↦
            .ok (some ⟨k.positive, k.negated, d.canonicalize, b⟩) := by
  rw [infer?]
  cases mgu? n k.positive k.negated with
  | none => rfl
  | some s? =>
    cases s? with
    | none => rfl
    | some s =>
      show ExceptT.run
        ((liftM (k.remainder.apply s) : ExceptT ShiftError Budgeted Clause) >>= _) = _
      dsimp only [Option.bind_some]
      cases k.remainder.apply s with
      | error e => rfl
      | ok c =>
        show ExceptT.run (c.factor n >>= _) = _
        rw [ExceptT.run_bind]
        dsimp only
        cases (c.factor n).run with
        | none => rfl
        | some r =>
          obtain e | d := r
          · rfl
          · show ExceptT.run ((liftM (d.canonicalize.isTautological n) :
              ExceptT ShiftError Budgeted Bool) >>= _) = _
            dsimp only [Option.bind_some]
            cases d.canonicalize.isTautological n <;> rfl

/-- The literals of a clash are unified, the unifier is applied to the others, and the conclusion is
factored and canonically named. -/
theorem Clash.infer?_eq_ok_some (h : (k.infer? n).run = some (.ok (some i))) :
    ∃ s c d, mgu? n k.positive k.negated = some (some s) ∧ k.remainder.apply s = .ok c ∧
      (c.factor n).run = some (.ok d) ∧ i.resolvent = d.canonicalize ∧
      d.canonicalize.isTautological n = some i.isTautology := by
  rw [infer?_run] at h
  obtain ⟨s?, hs, h⟩ := Option.bind_eq_some_iff.1 h
  cases s? with
  | none => cases h
  | some s =>
    dsimp only at h
    split at h
    · cases h
    · rename_i c hc
      obtain ⟨r, hr, h⟩ := Option.bind_eq_some_iff.1 h
      obtain e | d := r
      · cases h
      · obtain ⟨b, hb, h⟩ := Option.map_eq_some_iff.1 h
        cases h
        exact ⟨s, c, d, hs, hc, hr, rfl, hb⟩

/-- An inference is drawn from the first clash before those of the others, unless it ends in an
error. -/
theorem inferFrom_cons (n : Nat) (k : Clash) (ks : List Clash) :
    inferFrom n (k :: ks) = (k.infer? n).run.bind fun
      | .error e => some ⟨[], some e⟩
      | .ok none => inferFrom n ks
      | .ok (some i) =>
        (inferFrom n ks).map fun r ↦ { r with inferences := i :: r.inferences } := by
  rw [inferFrom]
  cases (k.infer? n).run with
  | none => rfl
  | some r =>
    obtain e | i? := r
    · rfl
    · cases i? with
      | none => rfl
      | some i => cases inferFrom n ks <;> rfl

/-- The inferences from a list of clashes come from its members. -/
theorem exists_of_mem_inferFrom (h : inferFrom n ks = some r) (hi : i ∈ r.inferences) :
    ∃ k ∈ ks, (k.infer? n).run = some (.ok (some i)) := by
  induction ks generalizing r with
  | nil =>
    cases h
    cases hi
  | cons k ks ih =>
    rw [inferFrom_cons] at h
    obtain ⟨r', hr', h⟩ := Option.bind_eq_some_iff.1 h
    obtain e | i? := r'
    · cases h
      cases hi
    · cases i? with
      | none =>
        obtain ⟨k', hk', hinfer⟩ := ih h hi
        exact ⟨k', List.mem_cons_of_mem k hk', hinfer⟩
      | some i' =>
        obtain ⟨r₁, hr₁, rfl⟩ := Option.map_eq_some_iff.1 h
        rcases List.mem_cons.1 hi with rfl | hi
        · exact ⟨k, List.mem_cons_self, hr'⟩
        · obtain ⟨k', hk', hinfer⟩ := ih hr₁ hi
          exact ⟨k', List.mem_cons_of_mem k hk', hinfer⟩

/-- When no error cuts it short, every clash of a list is resolved, and its inference is drawn. -/
theorem infer?_of_mem_inferFrom (h : inferFrom n ks = some r) (hf : r.fault = none) (hk : k ∈ ks) :
    ∃ i?, (k.infer? n).run = some (.ok i?) ∧ ∀ i, i? = some i → i ∈ r.inferences := by
  induction ks generalizing r with
  | nil => cases hk
  | cons k' ks ih =>
    rw [inferFrom_cons] at h
    obtain ⟨r', hr', h⟩ := Option.bind_eq_some_iff.1 h
    obtain e | i? := r'
    · cases h
      cases hf
    · cases i? with
      | none =>
        rcases List.mem_cons.1 hk with rfl | hk
        · exact ⟨none, hr', fun i hi ↦ nomatch hi⟩
        · exact ih h hf hk
      | some i' =>
        obtain ⟨r₁, hr₁, rfl⟩ := Option.map_eq_some_iff.1 h
        rcases List.mem_cons.1 hk with rfl | hk
        · exact ⟨some i', hr', fun i hi ↦ by cases hi; exact List.mem_cons_self⟩
        · obtain ⟨i?, hi?, hmem⟩ := ih hr₁ hf hk
          exact ⟨i?, hi?, fun i hi ↦ List.mem_cons_of_mem i' (hmem i hi)⟩

/-- When every clash of a list is resolved, no error cuts the drawing of inferences short. -/
theorem exists_inferFrom (h : ∀ k ∈ ks, ∃ i?, (k.infer? n).run = some (.ok i?)) :
    ∃ r, inferFrom n ks = some r ∧ r.fault = none := by
  induction ks with
  | nil => exact ⟨_, rfl, rfl⟩
  | cons k ks ih =>
    obtain ⟨i?, hi⟩ := h k List.mem_cons_self
    obtain ⟨r, hr, hf⟩ := ih fun k hk ↦ h k (List.mem_cons_of_mem _ hk)
    rw [inferFrom_cons, hi]
    cases i? with
    | none => exact ⟨r, hr, hf⟩
    | some i => exact ⟨_, Option.map_eq_some_iff.2 ⟨r, hr, rfl⟩, hf⟩

/-- The error that cuts the drawing of inferences short is that of one of the clashes. -/
theorem exists_of_fault_inferFrom {e : ShiftError} (h : inferFrom n ks = some r)
    (hf : r.fault = some e) : ∃ k ∈ ks, (k.infer? n).run = some (.error e) := by
  induction ks generalizing r with
  | nil =>
    cases h
    cases hf
  | cons k ks ih =>
    have hrest : ∀ {r}, inferFrom n ks = some r → r.fault = some e →
        ∃ k' ∈ k :: ks, (k'.infer? n).run = some (.error e) := fun h hf ↦
      have ⟨k', hk', hinfer⟩ := ih h hf
      ⟨k', List.mem_cons_of_mem k hk', hinfer⟩
    rw [inferFrom_cons] at h
    obtain ⟨r', hr', h⟩ := Option.bind_eq_some_iff.1 h
    obtain e' | i? := r'
    · cases h
      cases hf
      exact ⟨k, List.mem_cons_self, hr'⟩
    · cases i? with
      | none => exact hrest h hf
      | some i =>
        obtain ⟨r₁, hr₁, rfl⟩ := Option.map_eq_some_iff.1 h
        exact hrest hr₁ hf

theorem mem_resolvents {c : Clause} :
    c ∈ r.resolvents ↔ ∃ i ∈ r.inferences, i.isTautology = false ∧ i.resolvent = c := by
  simp [Resolution.resolvents, and_assoc]

/-- Without an error, the resolvents of two clauses are those of resolving them. -/
theorem resolvents_of_resolve {c d : Clause} (hr : resolve n c d = some r) (hf : r.fault = none) :
    resolvents n c d = some (.ok r.resolvents) := by
  simp [resolvents, hr, hf]

/-- The clashes of two clauses, whose variables have been renamed apart. -/
def clashes (c d : Clause) : List Clash :=
  Clash.between (c.standardizeApart d).1 (c.standardizeApart d).2 ++
    Clash.between (c.standardizeApart d).2 (c.standardizeApart d).1

theorem mem_between {c d : Clause} :
    k ∈ Clash.between c d ↔ ∃ p ∈ c.pos, ∃ q ∈ d.neg, k = ⟨c, d, p, q⟩ := by
  simp [Clash.between, eq_comm (a := k)]

/-- The clashes of two clauses of one kind are between clauses of that kind. -/
theorem sides_of_mem_clashes {P : Clause → Prop} {a b : Clause} (hk : k ∈ clashes a b)
    (hP : ∀ f c, P c → P (Clause.rename f c)) (ha : P a) (hb : P b) :
    P k.left ∧ P k.right ∧ k.positive ∈ k.left.pos ∧ k.negated ∈ k.right.neg := by
  have hsides : P (a.standardizeApart b).1 ∧ P (a.standardizeApart b).2 := by
    unfold Clause.standardizeApart
    split
    · exact ⟨ha, hb⟩
    · exact ⟨hP _ a ha, hP _ b hb⟩
  rcases List.mem_append.1 hk with hk | hk
  · obtain ⟨p, hp, q, hq, rfl⟩ := mem_between.1 hk
    exact ⟨hsides.1, hsides.2, hp, hq⟩
  · obtain ⟨p, hp, q, hq, rfl⟩ := mem_between.1 hk
    exact ⟨hsides.2, hsides.1, hp, hq⟩

end Inference

end OffsetLogic
