import Mathlib.Data.List.Forall2
import OffsetLogic.Proofs.Query.Ask
import OffsetLogic.Proofs.Renaming.Variant

/-!
# Renaming apart

Variables are kept apart by marks, and **a mark can be read off a name**: it is what follows the
last underscore, whatever the name was before, so names with different marks are different
(`Term.eq_of_suffixed_eq`). The mark of a stored clause is the number of clauses told before it, in
decimal digits, and the marks `q`, `l` and `r` are no digits.

A store that was told a list of clauses holds variants of them, in order, each marked with its place
(`KnowledgeBase.Numbered`). Telling one more clause keeps this, so no two stored clauses share a
variable, and no query shares one with any of them.

**No assumption is made about names.** A clause may be told with variables that look marked already,
`x_3` or `x_q`, and a name may end in an underscore. Marking puts one more underscore behind
whatever is there, so the last one is always the one that marking has put. What would break the
argument is a mark with an underscore in it, and there is none: the conditions of
`Clause.Marked.isDisjoint` are that the two marks have none and differ.

Resolving renames on demand, with the same two marks each time, so derived clauses are not kept
apart in advance. The clauses that a resolution works on are either the two as they are, when they
share no variable, or both of them marked. In both cases they are variants of the two and share none
(`Clause.exists_standardizeApart`).

`RenamedApart` collects what a user of a store relies on, and `Numbered` what an induction over
telling needs. The second is stronger, since it says which mark each clause has.
-/

namespace OffsetLogic

/-! ### Marks -/

/-- Lists in which `a` is followed by tails without `a` are equal only part by part. -/
theorem append_cons_inj_of_notMem_right {α : Type} {a : α} {l l' r r' : List α} (hr : a ∉ r)
    (hr' : a ∉ r') (h : l ++ a :: r = l' ++ a :: r') : l = l' ∧ r = r' := by
  rcases List.append_eq_append_iff.1 h with ⟨m, rfl, hm⟩ | ⟨m, rfl, hm⟩
  · cases m with
    | nil => exact ⟨(List.append_nil l).symm, (List.cons.inj hm).2⟩
    | cons b m =>
      -- the second `a` would stand in the first tail
      have hmem : a ∈ r := (List.cons.inj hm).2 ▸ List.mem_append_right m List.mem_cons_self
      exact absurd hmem hr
  · cases m with
    | nil => exact ⟨List.append_nil l', (List.cons.inj hm).2.symm⟩
    | cons b m =>
      have hmem : a ∈ r' := (List.cons.inj hm).2 ▸ List.mem_append_right m List.mem_cons_self
      exact absurd hmem hr'

namespace Term

/-- A mark can be read off a marked name. -/
theorem eq_of_suffixed_eq {s t x y : String} (hs : '_' ∉ s.toList) (ht : '_' ∉ t.toList)
    (h : suffixed s x = suffixed t y) : s = t := by
  have hlist := congrArg String.toList h
  simp only [suffixed, String.toList_append, List.append_assoc] at hlist
  exact String.toList_inj.1 (append_cons_inj_of_notMem_right hs ht hlist).2

end Term

/-- A number is written in digits. -/
theorem isDigit_of_mem_toString {i : Nat} {a : Char} (h : a ∈ (toString i).toList) :
    a.isDigit = true := by
  rw [Nat.toString_eq_repr, Nat.toList_repr] at h
  exact Nat.isDigit_of_mem_toDigits (by decide) (by decide) h

/-- The mark of a stored clause has no underscore in it. -/
theorem underscore_notMem_toString (i : Nat) : '_' ∉ (toString i).toList := fun h ↦
  absurd (isDigit_of_mem_toString h) (by decide)

/-- Different numbers are different marks. -/
theorem toString_injective : Function.Injective (toString : Nat → String) := fun _ _ h ↦
  canonicalName_injective (congrArg ("_" ++ ·) h)

/-- The mark of a query is no number. -/
theorem querySuffix_ne_toString (i : Nat) : KnowledgeBase.querySuffix ≠ toString i := by
  intro h
  have hmem : 'q' ∈ (toString i).toList := h ▸ List.mem_singleton_self 'q'
  exact absurd (isDigit_of_mem_toString hmem) (by decide)

namespace Clause

variable {s t : String} {c d : Clause}

/-- Every variable of the clause is marked with the suffix. -/
def Marked (s : String) (c : Clause) : Prop :=
  ∀ y ∈ c.variableNames, ∃ x, y = Term.suffixed s x

/-- Marking marks every variable. -/
theorem marked_renameSuffix (s : String) (c : Clause) : (c.renameSuffix s).Marked s := by
  intro y hy
  obtain ⟨x, -, rfl⟩ := mem_variableNames_rename.1 hy
  exact ⟨x, rfl⟩

theorem isVariant_renameSuffix (s : String) (c : Clause) : c.IsVariant (c.renameSuffix s) :=
  isVariant_rename (suffixed_injective s).injOn

/-- Clauses with different marks have no variable in common. -/
theorem Marked.isDisjoint (hc : c.Marked s) (hd : d.Marked t) (hs : '_' ∉ s.toList)
    (ht : '_' ∉ t.toList) (hst : s ≠ t) : c.variableNames.isDisjoint d.variableNames = true := by
  refine SortedSet.isDisjoint_iff.2 fun y hy hy' ↦ hst ?_
  obtain ⟨x, rfl⟩ := hc y hy
  obtain ⟨x', hx'⟩ := hd _ hy'
  exact Term.eq_of_suffixed_eq hs ht hx'

/-- What two clauses are resolved as are variants of them without common variables. -/
theorem exists_standardizeApart (c d : Clause) :
    ∃ c' d', c.standardizeApart d = (c', d') ∧ c.IsVariant c' ∧ d.IsVariant d' ∧
      c'.variableNames.isDisjoint d'.variableNames = true := by
  unfold standardizeApart
  split
  · rename_i hdisjoint
    exact ⟨c, d, rfl, .refl c, .refl d, hdisjoint⟩
  · exact ⟨_, _, rfl, isVariant_renameSuffix _ c, isVariant_renameSuffix _ d,
      (marked_renameSuffix _ c).isDisjoint (marked_renameSuffix _ d) (by decide) (by decide)
        (by decide)⟩

end Clause

/-! ### Stores -/

namespace KnowledgeBase

variable {kb : KnowledgeBase} {told more : List Clause} {c : Clause}

/-- The store holds variants of the clauses that it was told, marked with their places. -/
structure Numbered (kb : KnowledgeBase) (told : List Clause) : Prop where
  variants : List.Forall₂ Clause.IsVariant told kb.clauses
  generation_eq : kb.generation = kb.clauses.length
  marked : ∀ (i : Nat) (c : Clause), kb.clauses[i]? = some c → c.Marked (toString i)

/-- Telling one more clause marks it with its place, which is the number of those before it. -/
theorem Numbered.tell (h : kb.Numbered told) (c : Clause) : (kb.tell c).Numbered (told ++ [c]) := by
  refine ⟨List.rel_append h.variants (.cons (c.isVariant_renameSuffix _) .nil), ?_, ?_⟩
  · simp [KnowledgeBase.tell, h.generation_eq]
  · intro i d hd
    have hd : (kb.clauses ++ [kb.mark c])[i]? = some d := hd
    rw [List.getElem?_append] at hd
    split at hd
    · exact h.marked i d hd
    · -- the clause told last stands where the number of clauses before it says
      rename_i hlt
      obtain ⟨hi, hd⟩ := List.getElem?_eq_some_iff.1 hd
      have hlast : i = kb.generation := by
        rw [List.length_singleton] at hi
        rw [h.generation_eq]
        omega
      rw [← hd, List.getElem_singleton, hlast]
      exact Clause.marked_renameSuffix _ c

theorem Numbered.tellAll (h : kb.Numbered told) (more : List Clause) :
    (kb.tellAll more).Numbered (told ++ more) := by
  induction more generalizing kb told with
  | nil =>
    rw [List.append_nil]
    exact h
  | cons c more ih =>
    rw [List.append_cons]
    exact ih (h.tell c)

/-- A store of axioms has them marked with their places, from zero on. -/
theorem numbered_ofAxioms (config : Config) (axioms : List Clause) :
    (ofAxioms config axioms).Numbered axioms := by
  have hempty : (⟨[], 0, config⟩ : KnowledgeBase).Numbered [] := ⟨.nil, rfl, by simp⟩
  exact hempty.tellAll axioms

/-- Clauses in different places have different marks, so they have no variable in common. -/
theorem Numbered.pairwise_isDisjoint (h : kb.Numbered told) :
    kb.clauses.Pairwise fun c d ↦ c.variableNames.isDisjoint d.variableNames = true := by
  refine List.pairwise_iff_getElem.2 fun i j hi hj hij ↦ ?_
  exact (h.marked i _ (List.getElem?_eq_getElem hi)).isDisjoint
    (h.marked j _ (List.getElem?_eq_getElem hj)) (underscore_notMem_toString i)
    (underscore_notMem_toString j) fun heq ↦ Nat.ne_of_lt hij (toString_injective heq)

/-- A query has no variable in common with a stored clause, whose mark is a number. -/
theorem Numbered.isDisjoint_query (h : kb.Numbered told) (query : Clause) :
    ∀ c ∈ kb.clauses,
      c.variableNames.isDisjoint (query.renameSuffix querySuffix).variableNames = true := by
  intro c hc
  obtain ⟨i, hi, rfl⟩ := List.getElem_of_mem hc
  exact (h.marked i _ (List.getElem?_eq_getElem hi)).isDisjoint
    (Clause.marked_renameSuffix _ query)
    (underscore_notMem_toString i) (by decide) (querySuffix_ne_toString i).symm

/-- Nothing that a store holds, or is searched with, shares a variable by accident. -/
structure RenamedApart (kb : KnowledgeBase) (told : List Clause) : Prop where
  /-- Each stored clause is a variant of the clause that was told in its place. -/
  variants : List.Forall₂ Clause.IsVariant told kb.clauses
  /-- The generation is the number of stored clauses. -/
  generation_eq : kb.generation = kb.clauses.length
  /-- No two stored clauses have a variable in common. -/
  disjoint : kb.clauses.Pairwise fun c d ↦ c.variableNames.isDisjoint d.variableNames = true
  /-- A query is searched as the negation of a variant that has no variable in common with any
  stored clause. -/
  query : ∀ query : Clause, ∃ copy, query.IsVariant copy ∧
    kb.workingSet query = kb.clauses ++ (if query.isEmpty then [] else [copy.negate]) ∧
    ∀ c ∈ kb.clauses, c.variableNames.isDisjoint copy.variableNames = true

/-- **Renaming apart never captures a variable**, whatever names the clauses have that are told,
asked or resolved. Stored clauses and copies of queries are variants of what was told and asked, and
have no variables in common; and the same holds of the two clauses that a resolution works on. -/
theorem renamedApart_tellAll (config : Config) (axioms told : List Clause) :
    ((ofAxioms config axioms).tellAll told).RenamedApart (axioms ++ told) ∧
    ∀ c d : Clause, ∃ c' d', c.IsVariant c' ∧ d.IsVariant d' ∧
      c'.variableNames.isDisjoint d'.variableNames = true ∧
      ∀ n, resolve n c d = inferFrom n (Clash.between c' d' ++ Clash.between d' c') := by
  have hkb := (numbered_ofAxioms config axioms).tellAll told
  refine ⟨⟨hkb.variants, hkb.generation_eq, hkb.pairwise_isDisjoint, fun query ↦ ?_⟩, fun c d ↦ ?_⟩
  · refine ⟨_, query.isVariant_renameSuffix querySuffix, ?_, hkb.isDisjoint_query query⟩
    rw [workingSet]
    split
    · exact (List.append_nil _).symm
    · rfl
  · obtain ⟨c', d', hcd, hc, hd, hdisjoint⟩ := c.exists_standardizeApart d
    refine ⟨c', d', hc, hd, hdisjoint, fun n ↦ ?_⟩
    rw [resolve, hcd]

end KnowledgeBase

end OffsetLogic
