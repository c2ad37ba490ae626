import Mathlib.Data.List.Basic
import Mathlib.Data.Set.Function
import OffsetLogic.Proofs.Semantics.Model

/-!
# Valuations under renamings

A renaming that keeps the variables of a clause apart loses none of its instances: whatever values
the variables have, the new names can have them too. This is so for canonical names
(`exists_valuation_canonicalize`), and two clauses that are renamed apart can have the values of
their variables at the same time (`exists_valuation_standardizeApart`).

The last statement is what renaming apart is for. The two clauses that are resolved have instances
of their own, found independently of each other, and the instance of the conclusion is one of both
together; so there has to be one valuation for the names of both. Where the clauses share no
variable, the two valuations are joined along the names that each of them has, and otherwise along
the marks, which differ.

The values may be elements of any domain, since nothing is done with them.
-/

namespace OffsetLogic

variable {D : Type}

/-! ### Names -/

/-- Marking keeps names apart. -/
theorem suffixed_injective (suffix : String) : Function.Injective (Term.suffixed suffix) := by
  intro x y h
  have h' := congrArg String.toList h
  simp only [Term.suffixed, String.toList_append, List.append_assoc] at h'
  exact String.toList_inj.1 (List.append_cancel_right h')

/-- A name with one mark is never a name with the other. -/
theorem suffixed_ne (x y : String) : Term.suffixed "l" x ≠ Term.suffixed "r" y := by
  intro h
  have h' := congrArg (fun s ↦ s.toList.getLast?) h
  simp [Term.suffixed] at h'

/-- Different numbers have different canonical names. -/
theorem canonicalName_injective : Function.Injective canonicalName := by
  intro i j h
  have h' := congrArg String.toList h
  simp only [canonicalName, String.toList_append, Nat.toString_eq_repr, Nat.toList_repr] at h'
  have hdigits := congrArg (Nat.ofDigitChars 10 · 0) (List.append_cancel_left h')
  simpa using hdigits

theorem Term.rename_id (t : Term) : t.rename id = t := by
  induction t with
  | const | var => rfl
  | app g ts ih => rw [rename, renameArgs_eq_map, List.map_congr_left ih, List.map_id']

/-! ### Names of a clause -/

namespace Clause

variable {c d : Clause} {f g : String → String} {v w : String → D} {t : Term} {x : String}

theorem mem_variableNames_of_mem_pos (ht : t ∈ c.pos) (hx : x ∈ t.occurrences) :
    x ∈ c.variableNames :=
  mem_variableNames.2 ⟨t, List.mem_append_left _ (SortedSet.mem_toList.2 ht), hx⟩

theorem mem_variableNames_of_mem_neg (ht : t ∈ c.neg) (hx : x ∈ t.occurrences) :
    x ∈ c.variableNames :=
  mem_variableNames.2 ⟨t, List.mem_append_right _ (SortedSet.mem_toList.2 ht), hx⟩

/-- The names that are listed by occurrence are the variables of the clause. -/
theorem mem_namesByOccurrence : x ∈ c.namesByOccurrence ↔ x ∈ c.variableNames := by
  simp [namesByOccurrence, arrangeByShape, atoms, or_and_right, exists_or]

theorem rename_id (c : Clause) : c.rename id = c := by
  have hterm : Term.rename id = id := funext Term.rename_id
  rw [rename, hterm, SortedSet.map, SortedSet.map, List.map_id, List.map_id,
    SortedSet.ofList_toList, SortedSet.ofList_toList]

/-! ### Valuations -/

/-- Names that are renamed injectively can keep their values. -/
theorem exists_valuation (hf : Set.InjOn f {x | x ∈ c.variableNames}) (v : String → D) :
    ∃ w : String → D, ∀ x ∈ c.variableNames, w (f x) = v x :=
  ⟨fun y ↦ v (Function.invFunOn f {x | x ∈ c.variableNames} y),
    fun _ hx ↦ congrArg v (hf.leftInvOn_invFunOn hx)⟩

/-- The canonical names can have the values of the names they replace. -/
theorem exists_valuation_canonicalize (c : Clause) (v : String → D) :
    ∃ (f : String → String) (w : String → D), c.canonicalize = c.rename f ∧
      ∀ x ∈ c.variableNames, w (f x) = v x := by
  obtain ⟨w, hw⟩ := exists_valuation (c := c)
    (f := fun x ↦ canonicalName (c.namesByOccurrence.idxOf x)) (fun x hx y hy hxy ↦ by
      have hx := mem_namesByOccurrence.2 hx
      exact (List.idxOf_inj hx).1 (canonicalName_injective hxy)) v
  exact ⟨_, w, rfl, hw⟩

/-- Whatever values the variables of two clauses have, after the clauses have been renamed apart
their names have them together. -/
theorem exists_valuation_standardizeApart (c d : Clause) (v w : String → D) :
    ∃ (f g : String → String) (u : String → D), c.standardizeApart d = (c.rename f, d.rename g) ∧
      (∀ x ∈ c.variableNames, u (f x) = v x) ∧ ∀ x ∈ d.variableNames, u (g x) = w x := by
  classical
  unfold standardizeApart
  split
  · rename_i hdisjoint
    refine ⟨id, id, fun x ↦ if x ∈ c.variableNames then v x else w x, ?_, ?_, ?_⟩
    · rw [rename_id, rename_id]
    · exact fun x hx ↦ if_pos hx
    · exact fun x hx ↦ if_neg fun hc ↦ SortedSet.isDisjoint_iff.1 hdisjoint x hc hx
  · obtain ⟨v', hv⟩ := exists_valuation (c := c) (suffixed_injective "l").injOn v
    obtain ⟨w', hw⟩ := exists_valuation (c := d) (suffixed_injective "r").injOn w
    -- a name is looked up by its suffix, which tells the two clauses apart
    refine ⟨_, _, fun y ↦ if ∃ x, Term.suffixed "l" x = y then v' y else w' y, rfl, ?_, ?_⟩
    · exact fun x hx ↦ (if_pos ⟨x, rfl⟩).trans (hv x hx)
    · exact fun x hx ↦ (if_neg fun ⟨y, hy⟩ ↦ suffixed_ne y x hy).trans (hw x hx)

end Clause

end OffsetLogic
