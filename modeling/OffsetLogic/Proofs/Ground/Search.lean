import Mathlib.Data.List.Sublists
import OffsetLogic.Proofs.Ground.Resolution
import OffsetLogic.Proofs.Search.Termination

/-!
# Searches in ground clauses

Over finitely many ground atoms there are finitely many clauses (`clausesOver`), so a search without
limits ends with a verdict. The verdict is right: what a run infers holds in every assignment in
which the given clauses hold, and a saturated list of clauses without the empty clause holds in some
assignment.

This is not about one rule. A rule is `Propositional` over the atoms when it gives remainders of two
clauses, among them all that contain no atom with both signs. **It may keep the others or drop
them**, because an assignment makes them true anyway.

The two halves of the verdict are proved apart. That refuted clauses hold in no assignment needs
only that each resolvent is a remainder: the property of holding in a fixed assignment is kept along
the run, and the empty clause has it never. That saturated clauses hold in some assignment is
`exists_assignment`, which is about sets of clauses closed under remainders and knows nothing of a
search; a saturated search is closed in this sense because every pair of known clauses was resolved
and nothing new came of it.

The sizes of the atoms enter only at the end. A rule is propositional on a budget beyond them, and
the atoms of the given clauses are a list whose largest size is a number, so some budget will do.
-/

namespace OffsetLogic

variable {infer : Clause → Clause → Budgeted Resolution} {n : Nat} {config : Config}
variable {clauses : List Clause} {atoms : List Term}

/-! ### The universe -/

/-- All clauses over a list of atoms. -/
def clausesOver (atoms : List Term) : List Clause :=
  atoms.sublists.flatMap fun pos ↦ atoms.sublists.map fun neg ↦ .ofLists pos neg

/-- The universe has all clauses over the atoms. -/
theorem mem_clausesOver {c : Clause} : c ∈ clausesOver atoms ↔ c.Over atoms := by
  have hset : ∀ s : SortedSet Term, (∀ t, t ∈ s → t ∈ atoms) →
      SortedSet.ofList (atoms.filter (· ∈ s)) = s := by
    intro s hs
    ext t
    simp only [SortedSet.mem_ofList, List.mem_filter, decide_eq_true_eq]
    exact ⟨And.right, fun ht ↦ ⟨hs t ht, ht⟩⟩
  simp only [clausesOver, List.mem_flatMap, List.mem_map, List.mem_sublists]
  constructor
  · rintro ⟨pos, hpos, neg, hneg, rfl⟩ t (ht | ht)
    · exact hpos.subset (SortedSet.mem_ofList.1 ht)
    · exact hneg.subset (SortedSet.mem_ofList.1 ht)
  · intro hc
    refine ⟨_, List.filter_sublist (p := fun t ↦ decide (t ∈ c.pos)), _,
      List.filter_sublist (p := fun t ↦ decide (t ∈ c.neg)), ?_⟩
    rw [Clause.ofLists, hset _ fun t ht ↦ hc t (.inl ht), hset _ fun t ht ↦ hc t (.inr ht)]

/-! ### Propositional rules -/

/-- Resolving two clauses over the atoms completes, and gives remainders of theirs, among them all
that contain no atom with both signs. -/
def Propositional (infer : Clause → Clause → Budgeted Resolution) (atoms : List Term) : Prop :=
  ∀ c d : Clause, c.Over atoms → d.Over atoms → ∃ r, infer c d = some r ∧ r.fault = none ∧
    (∀ e ∈ r.resolvents, c.IsRemainder d e) ∧
    ∀ e, c.IsRemainder d e → ¬ e.Clashing → e ∈ r.resolvents

/-- Resolution is propositional on ground atoms, on a budget beyond their sizes. -/
theorem propositional_resolve (hatoms : ∀ t ∈ atoms, t.isGround = true ∧ sizeOf t < n) :
    Propositional (resolve n) atoms := by
  intro c d hc hd
  obtain ⟨r, hr, hf, hspec, hall⟩ := resolve_ground hatoms hc hd
  refine ⟨r, hr, hf, fun e he ↦ ?_, fun e he hclash ↦ ?_⟩
  · obtain ⟨i, hi, -, rfl⟩ := mem_resolvents.1 he
    exact (hspec i hi).1
  · obtain ⟨i, hi, rfl⟩ := hall e he
    exact mem_resolvents.2 ⟨i, hi, Bool.eq_false_iff.2 fun ht ↦ hclash ((hspec i hi).2.1 ht), rfl⟩

namespace Propositional

variable (hinfer : Propositional infer atoms)

include hinfer

/-- A search under a propositional rule does not leave the clauses over the atoms. -/
theorem closedIn : Search.ClosedIn infer (clausesOver atoms) := by
  intro a ha b hb
  have ha := mem_clausesOver.1 ha
  have hb := mem_clausesOver.1 hb
  obtain ⟨r, hr, hf, hsub, -⟩ := hinfer a b ha hb
  exact ⟨r, hr, hf, fun e he ↦ mem_clausesOver.2 ((hsub e he).over ha hb)⟩

/-- Resolvents of ground clauses are over their atoms, and hold where the clauses do. -/
theorem holdsIn_of_infers {I : Term → Prop} {a b c : Clause}
    (ha : a.Over atoms ∧ a.HoldsIn I) (hb : b.Over atoms ∧ b.HoldsIn I)
    (h : Search.Infers infer a b c) : c.Over atoms ∧ c.HoldsIn I := by
  obtain ⟨r, hr, -, hc⟩ := h
  obtain ⟨r', hr', -, hsub, -⟩ := hinfer a b ha.1 hb.1
  rw [hr] at hr'
  cases hr'
  exact ⟨(hsub c hc).over ha.1 hb.1, (hsub c hc).holdsIn ha.2 hb.2⟩

/-- Refuted ground clauses hold together in no assignment. -/
theorem not_holdsIn_of_refuted {report : Report} {derivation : Derivation} {stats : Stats}
    (hover : ∀ c ∈ clauses, c.Over atoms) (h : refuteWith infer config n clauses = some report)
    (hresult : report.result = .ok (.refuted derivation stats)) (I : Term → Prop) :
    ¬ ∀ c ∈ clauses, c.HoldsIn I := by
  intro hI
  refine (Search.ended_of_refuteWith h).not_refuted (P := fun c ↦ c.Over atoms ∧ c.HoldsIn I)
    (fun c hc ↦ ⟨hover c hc, hI c hc⟩) ?_ (fun hempty ↦ Clause.not_holdsIn_empty hempty.2) hresult
  exact fun _ _ _ _ _ ↦ hinfer.holdsIn_of_infers

/-- Saturated ground clauses hold together in some assignment. -/
theorem exists_holdsIn_of_saturated {report : Report} {k : Nat} {stats : Stats}
    (hover : ∀ c ∈ clauses, c.Over atoms) (h : refuteWith infer config n clauses = some report)
    (hresult : report.result = .ok (.saturated k stats)) : ∃ I, ∀ c ∈ clauses, c.HoldsIn I := by
  obtain ⟨st, hreach, hfresh, -, hres⟩ := (Search.ended_of_refuteWith h).saturated hresult
  have hcons := hreach.consistent
  have htrees : st.trees = st.known := Search.trees_of_fresh hfresh
  have hmem := hreach.mem_of_closedIn (fun c hc ↦ mem_clausesOver.2 (hover c hc)) hinfer.closedIn
  rw [htrees] at hmem
  have hover : ∀ c ∈ st.known.map ProofTree.clause, c.Over atoms := fun c hc ↦ by
    obtain ⟨t, ht, rfl⟩ := List.mem_map.1 hc
    exact mem_clausesOver.1 (hmem t ht)
  obtain ⟨I, hI⟩ := exists_assignment atoms (S := fun c ↦ c ∈ st.known.map ProofTree.clause) hover
    (fun c d p hc hd hp hq hclash ↦ by
      by_cases hcd : c = d
      · rw [← hcd, Clash.remainder_self]
        exact hc
      · -- the two were resolved, in whichever order
        obtain ⟨pair, hpair, hxy, r, hr, -, hsub⟩ := Search.exists_resolved hfresh hres hc hd hcd
        have hrem : pair.1.clause.IsRemainder pair.2.clause (Clash.remainder ⟨c, d, p, p⟩) := by
          rcases hxy with ⟨h₁, h₂⟩ | ⟨h₁, h₂⟩ <;> rw [h₁, h₂]
          · exact .inl ⟨p, hp, hq, rfl⟩
          · exact .inr ⟨p, hp, hq, rfl⟩
        obtain ⟨h₁, h₂⟩ := mem_of_mem_orderedPairs hpair
        obtain ⟨r', hr', -, -, hall⟩ := hinfer _ _ (hover _ (List.mem_map_of_mem h₁))
          (hover _ (List.mem_map_of_mem h₂))
        cases hr.symm.trans hr'
        exact hsub (hall _ hrem hclash))
    (fun hempty ↦ by
      obtain ⟨t, ht, hte⟩ := List.mem_map.1 hempty
      exact hcons.ne_empty t (htrees ▸ ht) hte)
  exact ⟨I, fun c hc ↦ hI c (List.mem_map_of_mem (hcons.given c hc))⟩

end Propositional

/-- **Searching ground clauses decides whether they hold together in an assignment**, under every
rule that is propositional on a budget beyond the sizes of the atoms. -/
theorem exists_verdict_of_ground {infer : Nat → Clause → Clause → Budgeted Resolution}
    (hinfer : ∀ n atoms, (∀ t ∈ atoms, t.isGround = true ∧ sizeOf t < n) →
      Propositional (infer n) atoms)
    (hground : ∀ c ∈ clauses, c.isGround = true)
    (hrounds : config.maxRounds = none) (hclauses : config.maxClauses = none) :
    ∃ n report verdict, refuteWith (infer n) config n clauses = some report ∧
      report.result = .ok verdict ∧
      (verdict.isRefuted = true ↔ ¬ ∃ I, ∀ c ∈ clauses, c.HoldsIn I) := by
  have hatoms : ∀ t ∈ clauses.flatMap Clause.atoms, t.isGround = true ∧
      sizeOf t < sizeOf (clauses.flatMap Clause.atoms) +
        (clausesOver (clauses.flatMap Clause.atoms)).length + 1 := by
    intro t ht
    have := List.sizeOf_lt_of_mem ht
    obtain ⟨c, hc, htc⟩ := List.mem_flatMap.1 ht
    exact ⟨Clause.isGround_iff.1 (hground c hc) t (List.mem_append.1 htc), by omega⟩
  have hinfer := hinfer _ _ hatoms
  have hover : ∀ c ∈ clauses, c.Over (clauses.flatMap Clause.atoms) := fun c hc t ht ↦
    List.mem_flatMap.2 ⟨c, hc, List.mem_append.2 ht⟩
  obtain ⟨report, verdict, hreport, hresult⟩ := exists_verdict_of_finite
    (fun c hc ↦ mem_clausesOver.2 (hover c hc)) hinfer.closedIn hrounds hclauses
    (Nat.lt_succ_of_le (Nat.le_add_left _ _))
  refine ⟨_, report, verdict, hreport, hresult, ?_⟩
  cases verdict with
  | refuted derivation stats =>
    exact iff_of_true rfl fun ⟨I, hI⟩ ↦ hinfer.not_holdsIn_of_refuted hover hreport hresult I hI
  | saturated k stats =>
    exact iff_of_false Bool.false_ne_true fun h ↦
      h (hinfer.exists_holdsIn_of_saturated hover hreport hresult)

end OffsetLogic
