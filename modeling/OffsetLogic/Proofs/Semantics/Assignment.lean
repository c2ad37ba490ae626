import OffsetLogic.Resolution

/-!
# Truth assignments

A truth assignment gives every term a truth value, whatever the term is made of; a clause holds in
it when some positive literal is true or some negated atom is false. Both directions of
propositional resolution are about assignments. What is left of two clauses after an atom was
resolved upon holds where both do (`Clash.holdsIn_remainder`), and clauses that are closed under
such remainders and do not include the empty clause hold together in some assignment
(`exists_assignment`).

The second is proved by **elimination of one atom at a time**. An assignment for the clauses without
the atom extends to one of the two truth values, because two clauses that exclude one value each
would have a remainder that is false.

Remainders in which some atom has both signs need not be there. They hold in every assignment, so
nothing is lost when a search drops them, and the closure is asked for the others only. This is what
makes the theorem apply to the search that tests its conclusions as well as to the one that keeps
them all.

Truth values are propositions, so an assignment need not be decidable. A model and a valuation of
variables give one, in which a term is true when its value is; soundness for models is the first
half of this module used at that assignment. The second half is used for ground clauses only, where
different terms are independent of each other.
-/

namespace OffsetLogic

/-- Some positive literal is true or some negated atom is false. -/
def Clause.HoldsIn (I : Term → Prop) (c : Clause) : Prop :=
  (∃ t, t ∈ c.pos ∧ I t) ∨ ∃ t, t ∈ c.neg ∧ ¬ I t

/-- Every atom of the clause is in the list. -/
def Clause.Over (atoms : List Term) (c : Clause) : Prop := ∀ t, t ∈ c.pos ∨ t ∈ c.neg → t ∈ atoms

/-- Some atom occurs with both signs. -/
def Clause.Clashing (c : Clause) : Prop := ∃ t, t ∈ c.pos ∧ t ∈ c.neg

variable {I : Term → Prop} {c d : Clause} {k : Clash} {p t : Term}

theorem Clause.not_holdsIn_empty : ¬ (∅ : Clause).HoldsIn I := by
  rintro (⟨t, ht, -⟩ | ⟨t, ht, -⟩)
  · exact SortedSet.not_mem_empty ht
  · exact SortedSet.not_mem_empty ht

/-- A clause fails when all its positive literals are false and all its negated atoms true. -/
theorem Clause.not_holdsIn_iff :
    ¬ c.HoldsIn I ↔ (∀ t, t ∈ c.pos → ¬ I t) ∧ ∀ t, t ∈ c.neg → I t := by
  simp [HoldsIn, not_or]

/-- A clause holds when each literal of another clause that holds has a literal of its value. -/
theorem Clause.HoldsIn.map {J : Term → Prop} (h : c.HoldsIn J)
    (hpos : ∀ t, t ∈ c.pos → ∃ u, u ∈ d.pos ∧ (I u ↔ J t))
    (hneg : ∀ t, t ∈ c.neg → ∃ u, u ∈ d.neg ∧ (I u ↔ J t)) : d.HoldsIn I := by
  refine h.imp ?_ ?_
  · rintro ⟨t, ht, hJ⟩
    obtain ⟨u, hu, hiff⟩ := hpos t ht
    exact ⟨u, hu, hiff.2 hJ⟩
  · rintro ⟨t, ht, hJ⟩
    obtain ⟨u, hu, hiff⟩ := hneg t ht
    exact ⟨u, hu, fun hI ↦ hJ (hiff.1 hI)⟩

/-- Over no atoms there is only the empty clause. -/
theorem Clause.eq_empty_of_over_nil (hc : c.Over []) : c = ∅ := by
  have hnil : ∀ s : SortedSet Term, (∀ t, t ∈ s → t ∈ ([] : List Term)) → s = ∅ := fun s hs ↦
    SortedSet.ext fun t ↦ iff_of_false (fun ht ↦ List.not_mem_nil (hs t ht)) SortedSet.not_mem_empty
  obtain ⟨pos, neg⟩ := c
  rw [hnil pos fun t ht ↦ hc t (.inl ht), hnil neg fun t ht ↦ hc t (.inr ht)]
  rfl

/-! ### Remainders -/

namespace Clash

/-- The positive literals of the first clause lose the clashing one, those of the second stay. -/
theorem mem_pos_remainder :
    t ∈ k.remainder.pos ↔ t ∈ k.left.pos ∧ t ≠ k.positive ∨ t ∈ k.right.pos := by
  rw [remainder, SortedSet.mem_union, SortedSet.mem_erase]

/-- The negated atoms of the second clause lose the clashing one, those of the first stay. -/
theorem mem_neg_remainder :
    t ∈ k.remainder.neg ↔ t ∈ k.left.neg ∨ t ∈ k.right.neg ∧ t ≠ k.negated := by
  rw [remainder, SortedSet.mem_union, SortedSet.mem_erase]

/-- Where both clauses of a clash hold and the clashing atoms have the same value, some other
literal is true. -/
theorem holdsIn_remainder (hl : k.left.HoldsIn I) (hr : k.right.HoldsIn I)
    (heq : I k.positive → I k.negated) : k.remainder.HoldsIn I := by
  obtain ⟨t, ht, htrue⟩ | ⟨t, ht, hfalse⟩ := hl
  · obtain ⟨u, hu, hutrue⟩ | ⟨u, hu, hufalse⟩ := hr
    · exact .inl ⟨u, mem_pos_remainder.2 (.inr hu), hutrue⟩
    · by_cases htp : t = k.positive
      · -- the positive literal is true, so the true literal of the other clause is not its negation
        have huq : u ≠ k.negated := fun huq ↦ hufalse (huq ▸ heq (htp ▸ htrue))
        exact .inr ⟨u, mem_neg_remainder.2 (.inr ⟨hu, huq⟩), hufalse⟩
      · exact .inl ⟨t, mem_pos_remainder.2 (.inl ⟨ht, htp⟩), htrue⟩
  · exact .inr ⟨t, mem_neg_remainder.2 (.inl ht), hfalse⟩

theorem over_remainder {atoms : List Term} (hl : k.left.Over atoms) (hr : k.right.Over atoms) :
    k.remainder.Over atoms := by
  rintro t (ht | ht)
  · exact (mem_pos_remainder.1 ht).elim (fun ht ↦ hl t (.inl ht.1)) fun ht ↦ hr t (.inl ht)
  · exact (mem_neg_remainder.1 ht).elim (fun ht ↦ hl t (.inr ht)) fun ht ↦ hr t (.inr ht.1)

/-- To resolve a clause with itself upon an atom of both signs gives the clause. -/
theorem remainder_self (c : Clause) (p : Term) : remainder ⟨c, c, p, p⟩ = c := by
  have hp : (remainder ⟨c, c, p, p⟩).pos = c.pos := SortedSet.ext fun t ↦ by
    rw [mem_pos_remainder]
    exact ⟨fun h ↦ h.elim And.left id, .inr⟩
  have hn : (remainder ⟨c, c, p, p⟩).neg = c.neg := SortedSet.ext fun t ↦ by
    rw [mem_neg_remainder]
    exact ⟨fun h ↦ h.elim id And.left, .inl⟩
  exact congr (congrArg Clause.mk hp) hn

end Clash

/-! ### Closed sets of clauses are satisfiable -/

/-- The assignment changed at one atom. -/
def assign (I : Term → Prop) (a : Term) (value : Prop) (t : Term) : Prop :=
  (t = a ∧ value) ∨ (t ≠ a ∧ I t)

/-- Where a clause fails in a changed assignment, its other literals are false in the assignment,
and the atom does not occur with the sign that its new value makes true. -/
theorem literals_of_not_holdsIn_assign {a : Term} {value : Prop}
    (h : ¬ c.HoldsIn (assign I a value)) :
    (∀ t, t ∈ c.pos → t ≠ a → ¬ I t) ∧ (∀ t, t ∈ c.neg → t ≠ a → I t) ∧
      (value → a ∉ c.pos) ∧ (¬ value → a ∉ c.neg) := by
  obtain ⟨hpos, hneg⟩ := Clause.not_holdsIn_iff.1 h
  refine ⟨fun t ht hta hI ↦ hpos t ht (.inr ⟨hta, hI⟩), fun t ht hta ↦ ?_,
    fun hv ha ↦ hpos a ha (.inl ⟨rfl, hv⟩), fun hv ha ↦ ?_⟩
  · exact ((hneg t ht).resolve_left fun h ↦ hta h.1).2
  · exact (hneg a ha).elim (fun h ↦ hv h.2) fun h ↦ h.1 rfl

/-- Clauses that are closed under remainders, tautological ones apart, and do not include the empty
clause hold together in an assignment. -/
theorem exists_assignment (atoms : List Term) {S : Clause → Prop} (hover : ∀ c, S c → c.Over atoms)
    (hclosed : ∀ c d p, S c → S d → p ∈ c.pos → p ∈ d.neg →
      ¬ (Clash.remainder ⟨c, d, p, p⟩).Clashing → S (Clash.remainder ⟨c, d, p, p⟩))
    (hempty : ¬ S ∅) : ∃ I, ∀ c, S c → c.HoldsIn I := by
  induction atoms generalizing S with
  | nil =>
    exact ⟨fun _ ↦ True, fun c hc ↦ absurd (Clause.eq_empty_of_over_nil (hover c hc) ▸ hc) hempty⟩
  | cons a atoms ih =>
    -- an assignment for the clauses without `a`
    obtain ⟨I, hI⟩ : ∃ I, ∀ c, S c ∧ a ∉ c.pos ∧ a ∉ c.neg → c.HoldsIn I := by
      refine ih ?_ ?_ fun h ↦ hempty h.1
      · rintro c ⟨hc, hpos, hneg⟩ t ht
        refine (List.mem_cons.1 (hover c hc t ht)).resolve_left ?_
        rintro rfl
        exact ht.elim hpos hneg
      · rintro c d p ⟨hc, hcpos, hcneg⟩ ⟨hd, hdpos, hdneg⟩ hp hq htaut
        refine ⟨hclosed c d p hc hd hp hq htaut, fun h ↦ ?_, fun h ↦ ?_⟩
        · exact (Clash.mem_pos_remainder.1 h).elim (fun h ↦ hcpos h.1) hdpos
        · exact (Clash.mem_neg_remainder.1 h).elim hcneg fun h ↦ hdneg h.1
    refine Classical.byContradiction fun hno ↦ ?_
    have hfail : ∀ value : Prop, ∃ c, S c ∧ ¬ c.HoldsIn (assign I a value) := by
      intro value
      refine Classical.byContradiction fun h ↦ hno ⟨assign I a value, fun c hc ↦ ?_⟩
      exact Classical.byContradiction fun hn ↦ h ⟨c, hc, hn⟩
    -- a clause that fails has the atom, since without it it would hold in `I`
    have hoccurs : ∀ c, S c → (∀ t, t ∈ c.pos → t ≠ a → ¬ I t) → (∀ t, t ∈ c.neg → t ≠ a → I t) →
        a ∈ c.pos ∨ a ∈ c.neg := by
      intro c hc hpos hneg
      refine Classical.byContradiction fun h ↦ ?_
      obtain ⟨hap, han⟩ := not_or.1 h
      refine Clause.not_holdsIn_iff.2 ⟨fun t ht ↦ hpos t ht ?_, fun t ht ↦ hneg t ht ?_⟩
        (hI c ⟨hc, hap, han⟩)
      · exact fun hta ↦ hap (hta ▸ ht)
      · exact fun hta ↦ han (hta ▸ ht)
    obtain ⟨c, hc, hcfail⟩ := hfail False
    obtain ⟨hcpos, hcneg, -, hcn⟩ := literals_of_not_holdsIn_assign hcfail
    obtain ⟨d, hd, hdfail⟩ := hfail True
    obtain ⟨hdpos, hdneg, hdp, -⟩ := literals_of_not_holdsIn_assign hdfail
    have hac : a ∈ c.pos := (hoccurs c hc hcpos hcneg).resolve_right (hcn id)
    have had : a ∈ d.neg := (hoccurs d hd hdpos hdneg).resolve_left (hdp trivial)
    -- all literals of the remainder are false in `I`, and `a` is gone
    have hpos : ∀ t, t ∈ (Clash.remainder ⟨c, d, a, a⟩).pos → t ≠ a ∧ ¬ I t := by
      intro t ht
      rcases Clash.mem_pos_remainder.1 ht with ⟨ht, hta⟩ | ht
      · exact ⟨hta, hcpos t ht hta⟩
      · have hta : t ≠ a := fun hta ↦ hdp trivial (hta ▸ ht)
        exact ⟨hta, hdpos t ht hta⟩
    have hneg : ∀ t, t ∈ (Clash.remainder ⟨c, d, a, a⟩).neg → t ≠ a ∧ I t := by
      intro t ht
      rcases Clash.mem_neg_remainder.1 ht with ht | ⟨ht, hta⟩
      · have hta : t ≠ a := fun hta ↦ hcn id (hta ▸ ht)
        exact ⟨hta, hcneg t ht hta⟩
      · exact ⟨hta, hdneg t ht hta⟩
    have htaut : ¬ (Clash.remainder ⟨c, d, a, a⟩).Clashing :=
      fun ⟨t, htp, htn⟩ ↦ (hpos t htp).2 (hneg t htn).2
    refine Clause.not_holdsIn_iff.2 ⟨fun t ht ↦ (hpos t ht).2, fun t ht ↦ (hneg t ht).2⟩
      (hI _ ⟨hclosed c d a hc hd hac had htaut, fun h ↦ (hpos a h).1 rfl, fun h ↦ (hneg a h).1 rfl⟩)

end OffsetLogic
