import OffsetLogic.Proofs.Resolution.Inference
import OffsetLogic.Proofs.Rules.Renaming

/-!
# Variants

Two clauses are **variants** when a renaming that keeps the variables of the first apart takes it to
the second. Only what the renaming does to names that occur matters (`Clause.rename_congr`), so such
a renaming can be undone, and being variants is an equivalence. No two literals collapse under it:
variants have the same numbers of literals (`Clause.IsVariant.size_eq`).

The renaming is a function on all names, and is asked to be injective on those of the clause only.
That is what the operations give: marking is injective everywhere, canonical naming on the names
that occur, and a function that undoes it has to be chosen and takes arbitrary values elsewhere
(`Clause.exists_rename_rename_eq`).

What is shown first about terms and sets is used for other maps of literals too: an image of an
image is an image under both maps, the image of a union is the union of the images, and an image is
smaller exactly because some members coincide in it.
-/

namespace OffsetLogic

/-! ### Renaming twice -/

namespace Term

variable {f g : String → String} {t : Term}

/-- Renaming twice is renaming by both functions, one after the other. -/
theorem rename_rename (f g : String → String) (t : Term) :
    (t.rename f).rename g = t.rename fun x ↦ g (f x) := by
  induction t with
  | const | var => rfl
  | app h ts ih =>
    simp only [rename, renameArgs_eq_map, List.map_map]
    exact congrArg _ (List.map_congr_left ih)

/-- Only what a renaming does to the names that occur matters. -/
theorem rename_congr (h : ∀ x ∈ t.occurrences, f x = g x) : t.rename f = t.rename g := by
  induction t with
  | const => rfl
  | var x k => rw [rename, rename, h x (List.mem_singleton_self x)]
  | app i ts ih =>
    rw [rename, rename, renameArgs_eq_map, renameArgs_eq_map]
    exact congrArg _ (List.map_congr_left fun t ht ↦ ih t ht fun x hx ↦
      h x (mem_occurrences_app.2 ⟨t, ht, hx⟩))

end Term

/-! ### Images of sets -/

namespace SortedSet

variable {F : Term → Term} {s : SortedSet Term} {t u : Term}

theorem map_map (F G : Term → Term) (s : SortedSet Term) :
    (s.map F).map G = s.map fun t ↦ G (F t) := by
  ext t
  simp only [SortedSet.mem_map, exists_exists_and_eq_and]

/-- The image of a union is the union of the images. -/
theorem map_union (F : Term → Term) (s s' : SortedSet Term) :
    (s ∪ s').map F = s.map F ∪ s'.map F := by
  ext t
  simp only [SortedSet.mem_union, SortedSet.mem_map, or_and_right, exists_or]

/-- Members can coincide in an image, but not multiply. -/
theorem size_map_le (F : Term → Term) (s : SortedSet Term) : (s.map F).size ≤ s.size := by
  have hsub : (s.map F).toList ⊆ s.toList.map F := fun u hu ↦
    List.mem_map.2 (SortedSet.mem_map.1 (mem_toList.1 hu))
  simpa [size] using (nodup_toList (s.map F)).length_le_of_subset hsub

/-- An image in which two members coincide is smaller. -/
theorem size_map_lt (ht : t ∈ s) (hu : u ∈ s) (htu : t ≠ u) (heq : F t = F u) :
    (s.map F).size < s.size := by
  have hsub : (s.map F).toList ⊆ (s.toList.erase u).map F := by
    intro b hb
    obtain ⟨a, ha, rfl⟩ := SortedSet.mem_map.1 (mem_toList.1 hb)
    by_cases hau : a = u
    · exact List.mem_map.2 ⟨t, (List.mem_erase_of_ne htu).2 ht, by rw [heq, hau]⟩
    · exact List.mem_map_of_mem ((List.mem_erase_of_ne hau).2 ha)
  have hle := (nodup_toList (s.map F)).length_le_of_subset hsub
  rw [List.length_map, List.length_erase_of_mem (mem_toList.2 hu)] at hle
  have hpos := List.length_pos_of_mem (mem_toList.2 hu)
  simp only [size]
  omega

end SortedSet

namespace Clause

variable {f g : String → String} {c d e : Clause} {t u : Term} {x : String}

theorem rename_rename (f g : String → String) (c : Clause) :
    (c.rename f).rename g = c.rename fun x ↦ g (f x) := by
  have hterm : (fun t ↦ (Term.rename f t).rename g) = Term.rename fun x ↦ g (f x) :=
    funext (Term.rename_rename f g)
  rw [rename, rename, SortedSet.map_map, SortedSet.map_map, hterm]
  rfl

theorem rename_congr (h : ∀ x ∈ c.variableNames, f x = g x) : c.rename f = c.rename g := by
  have hpos : c.pos.toList.map (Term.rename f) = c.pos.toList.map (Term.rename g) :=
    List.map_congr_left fun t ht ↦
      Term.rename_congr fun x hx ↦ h x (mem_variableNames_of_mem_pos ht hx)
  have hneg : c.neg.toList.map (Term.rename f) = c.neg.toList.map (Term.rename g) :=
    List.map_congr_left fun t ht ↦
      Term.rename_congr fun x hx ↦ h x (mem_variableNames_of_mem_neg ht hx)
  rw [rename, rename, SortedSet.map, SortedSet.map, hpos, hneg]
  rfl

/-- The variables of a renamed clause are the new names of its variables. -/
theorem mem_variableNames_rename {y : String} :
    y ∈ (c.rename f).variableNames ↔ ∃ x ∈ c.variableNames, f x = y := by
  have hatoms : ∀ t, t ∈ (c.rename f).atoms ↔ ∃ u ∈ c.atoms, u.rename f = t := by
    simp [atoms, rename, SortedSet.mem_map, or_and_right, exists_or]
  simp only [mem_variableNames, hatoms]
  constructor
  · rintro ⟨_, ⟨u, hu, rfl⟩, hy⟩
    rw [Term.occurrences_rename] at hy
    obtain ⟨x, hx, rfl⟩ := List.mem_map.1 hy
    exact ⟨x, ⟨u, hu, hx⟩, rfl⟩
  · rintro ⟨x, ⟨u, hu, hx⟩, rfl⟩
    refine ⟨_, ⟨u, hu, rfl⟩, ?_⟩
    rw [Term.occurrences_rename]
    exact List.mem_map_of_mem hx

/-! ### Variants -/

/-- The second clause is the first one, renamed by a function that keeps its variables apart. -/
def IsVariant (c d : Clause) : Prop :=
  ∃ f : String → String, Set.InjOn f {x | x ∈ c.variableNames} ∧ d = c.rename f

/-- Renaming by a function that keeps the variables of a clause apart gives a variant. -/
theorem isVariant_rename (hf : Set.InjOn f {x | x ∈ c.variableNames}) : c.IsVariant (c.rename f) :=
  ⟨f, hf, rfl⟩

/-- A renaming that keeps the variables of a clause apart can be undone. -/
theorem exists_rename_rename_eq (hf : Set.InjOn f {x | x ∈ c.variableNames}) :
    ∃ g : String → String, (∀ x ∈ c.variableNames, g (f x) = x) ∧ (c.rename f).rename g = c := by
  obtain ⟨g, hg⟩ := exists_valuation hf id
  refine ⟨g, hg, ?_⟩
  rw [rename_rename, rename_congr (g := id) hg, rename_id]

namespace IsVariant

theorem refl (c : Clause) : c.IsVariant c :=
  ⟨id, Function.injective_id.injOn, c.rename_id.symm⟩

/-- The renaming between variants can be undone. -/
theorem symm (h : c.IsVariant d) : d.IsVariant c := by
  obtain ⟨f, hf, rfl⟩ := h
  obtain ⟨g, hg, hc⟩ := exists_rename_rename_eq hf
  refine ⟨g, ?_, hc.symm⟩
  intro y hy z hz hyz
  obtain ⟨x, hx, rfl⟩ := mem_variableNames_rename.1 hy
  obtain ⟨x', hx', rfl⟩ := mem_variableNames_rename.1 hz
  rw [← hg x hx, ← hg x' hx', hyz]

/-- The renamings between variants compose. -/
theorem trans (h : c.IsVariant d) (h' : d.IsVariant e) : c.IsVariant e := by
  obtain ⟨f, hf, rfl⟩ := h
  obtain ⟨g, hg, rfl⟩ := h'
  refine ⟨fun x ↦ g (f x), fun x hx y hy hxy ↦ ?_, rename_rename f g c⟩
  exact hf hx hy (hg (mem_variableNames_rename.2 ⟨x, hx, rfl⟩)
    (mem_variableNames_rename.2 ⟨y, hy, rfl⟩) hxy)

/-- A variant has no more literals of either sign. -/
theorem size_le (h : c.IsVariant d) : d.pos.size ≤ c.pos.size ∧ d.neg.size ≤ c.neg.size := by
  obtain ⟨f, -, rfl⟩ := h
  exact ⟨SortedSet.size_map_le _ _, SortedSet.size_map_le _ _⟩

/-- No two literals collapse. -/
theorem size_eq (h : c.IsVariant d) : d.pos.size = c.pos.size ∧ d.neg.size = c.neg.size :=
  ⟨h.size_le.1.antisymm h.symm.size_le.1, h.size_le.2.antisymm h.symm.size_le.2⟩

end IsVariant

end Clause

end OffsetLogic
