/-!
# Finite sets as strictly ascending lists

A set is kept as the list of its members in ascending order, without repetition, and the order is
part of the type. So **equality of sets is equality of lists**, which is what makes two clauses with
the same literals the same clause (`SortedSet.ext`), and enumerating a set gives the one order in
which every other module visits its members.

Everything is stated through the view `toList` and membership: each operation has one lemma that
says which members its result has.

**Only insertion has to keep the order.** Union, images and the set of a list are folds of `insert`,
and removing members is a filter of the list, so `pairwise_insertSorted` is the one place where an
order is compared and an invariant restored. Everything else inherits it from there.

Two things are asked of the order. Members that compare equal have to be equal (`LawfulEqOrd`),
since insertion drops a member that compares equal to one that is there. And comparing has to be
transitive (`TransOrd`): otherwise what is inserted before a member need not be smaller than those
that follow, and two ascending lists with the same members need not be the same list.
-/

open Std

namespace OffsetLogic

/-- A finite set, as the strictly ascending list of its members. -/
structure SortedSet (α : Type) [Ord α] where
  /-- The members in ascending order. -/
  toList : List α
  /-- Every member is smaller than all that follow it. -/
  ascending : toList.Pairwise fun a b ↦ compare a b = .lt

namespace SortedSet

variable {α β : Type} [Ord α] [Ord β]

instance : Membership α (SortedSet α) := ⟨fun s a ↦ a ∈ s.toList⟩

@[simp] theorem mem_toList {s : SortedSet α} {a : α} : a ∈ s.toList ↔ a ∈ s := Iff.rfl

instance [DecidableEq α] (a : α) (s : SortedSet α) : Decidable (a ∈ s) :=
  inferInstanceAs (Decidable (a ∈ s.toList))

/-- A set is its list: that the list ascends adds nothing that could differ. -/
theorem toList_inj {s t : SortedSet α} : s.toList = t.toList ↔ s = t := by
  cases s; cases t; simp

instance [DecidableEq α] : DecidableEq (SortedSet α) := fun _ _ ↦
  decidable_of_iff _ toList_inj

/-- Sets are ordered as the ascending sequences of their members, lexicographically. -/
instance : Ord (SortedSet α) := ⟨fun s t ↦ compare s.toList t.toList⟩

/-- The set without members. -/
def empty : SortedSet α := ⟨[], .nil⟩

instance : EmptyCollection (SortedSet α) := ⟨empty⟩
instance : Inhabited (SortedSet α) := ⟨empty⟩

/-- The set of the one member `a`. -/
def singleton (a : α) : SortedSet α := ⟨[a], List.pairwise_singleton _ _⟩

def isEmpty (s : SortedSet α) : Bool := s.toList.isEmpty

/-- The number of members. -/
def size (s : SortedSet α) : Nat := s.toList.length

/-- The members that satisfy `p`. -/
def filter (p : α → Bool) (s : SortedSet α) : SortedSet α :=
  ⟨s.toList.filter p, s.ascending.filter p⟩

@[simp] theorem not_mem_empty {a : α} : ¬ a ∈ (∅ : SortedSet α) := List.not_mem_nil

@[simp] theorem mem_singleton {a b : α} : b ∈ singleton a ↔ b = a := List.mem_singleton

@[simp] theorem mem_filter {p : α → Bool} {a : α} {s : SortedSet α} :
    a ∈ s.filter p ↔ a ∈ s ∧ p a = true := List.mem_filter

/-- Emptiness can be tested on the list. -/
theorem isEmpty_iff {s : SortedSet α} : s.isEmpty = true ↔ s = ∅ := by
  rw [isEmpty, List.isEmpty_iff]
  exact ⟨fun h ↦ toList_inj.1 h, fun h ↦ h ▸ rfl⟩

/-! ### Insertion -/

/-- `a` put in its place in an ascending list; a member is not repeated. -/
def insertSorted (a : α) : List α → List α
  | [] => [a]
  | b :: bs =>
    match compare a b with
    | .lt => a :: b :: bs
    | .eq => b :: bs
    | .gt => b :: insertSorted a bs

variable [LawfulEqOrd α] [TransOrd β] [LawfulEqOrd β]

/-- Inserting adds one member and loses none, also where a member that compares equal is there
already. -/
theorem mem_insertSorted {a c : α} {l : List α} : c ∈ insertSorted a l ↔ c = a ∨ c ∈ l := by
  induction l with
  | nil => simp [insertSorted]
  | cons b bs ih =>
    simp only [insertSorted]
    split
    · simp
    · rename_i h
      have : a = b := LawfulEqCmp.eq_of_compare h
      subst this
      simp
    · simp [ih, or_left_comm]

variable [TransOrd α]

/-- Inserting keeps a list strictly ascending. Every operation that builds a set rests on this. -/
theorem pairwise_insertSorted {a : α} {l : List α}
    (hl : l.Pairwise fun a b ↦ compare a b = .lt) :
    (insertSorted a l).Pairwise fun a b ↦ compare a b = .lt := by
  induction l with
  | nil => simp [insertSorted]
  | cons b bs ih =>
    obtain ⟨hb, hbs⟩ := List.pairwise_cons.1 hl
    simp only [insertSorted]
    split
    · rename_i h
      refine List.pairwise_cons.2 ⟨fun c hc ↦ ?_, hl⟩
      rcases List.mem_cons.1 hc with rfl | hc
      · exact h
      · exact TransCmp.lt_trans h (hb c hc)
    · exact hl
    · rename_i h
      refine List.pairwise_cons.2 ⟨fun c hc ↦ ?_, ih hbs⟩
      rcases mem_insertSorted.1 hc with rfl | hc
      · exact OrientedCmp.lt_of_gt h
      · exact hb c hc

/-- The set with `a` added. -/
def insert (a : α) (s : SortedSet α) : SortedSet α :=
  ⟨insertSorted a s.toList, pairwise_insertSorted s.ascending⟩

/-- The set of the members of a list, whatever their order and repetition. -/
def ofList (l : List α) : SortedSet α := l.foldr insert ∅

/-- The members of either set. -/
def union (s t : SortedSet α) : SortedSet α := ofList (s.toList ++ t.toList)

instance : Union (SortedSet α) := ⟨union⟩

/-- The image of a set. -/
def map (f : α → β) (s : SortedSet α) : SortedSet β := ofList (s.toList.map f)

/-- The set without `a`. -/
def erase (a : α) (s : SortedSet α) : SortedSet α := s.filter fun b ↦ compare b a != .eq

/-- Whether two sets have no member in common. -/
def isDisjoint (s t : SortedSet α) : Bool :=
  s.toList.all fun a ↦ t.toList.all fun b ↦ compare a b != .eq

/-! ### Members of each result -/

@[simp] theorem mem_insert {a b : α} {s : SortedSet α} : b ∈ s.insert a ↔ b = a ∨ b ∈ s :=
  mem_insertSorted

/-- Neither the order nor the repetitions of a list are left in the set made from it. -/
@[simp] theorem mem_ofList {a : α} {l : List α} : a ∈ ofList l ↔ a ∈ l := by
  induction l with
  | nil => exact iff_of_false not_mem_empty List.not_mem_nil
  | cons b bs ih =>
    show a ∈ (ofList bs).insert b ↔ _
    rw [mem_insert, ih, List.mem_cons]

@[simp] theorem mem_union {a : α} {s t : SortedSet α} : a ∈ s ∪ t ↔ a ∈ s ∨ a ∈ t := by
  show a ∈ ofList (s.toList ++ t.toList) ↔ _
  simp

omit [LawfulEqOrd α] [TransOrd α] in
/-- The members of an image are the images of the members, of which several may be the same. -/
@[simp] theorem mem_map {f : α → β} {b : β} {s : SortedSet α} :
    b ∈ s.map f ↔ ∃ a, a ∈ s ∧ f a = b := by
  simp [map]

omit [TransOrd α] in
@[simp] theorem mem_erase {a b : α} {s : SortedSet α} : b ∈ s.erase a ↔ b ∈ s ∧ b ≠ a := by
  simp [erase]

omit [TransOrd α] in
/-- Sets are disjoint when no member of the first is one of the second. -/
theorem isDisjoint_iff {s t : SortedSet α} :
    s.isDisjoint t = true ↔ ∀ a, a ∈ s → ¬ a ∈ t := by
  simp only [isDisjoint, List.all_eq_true, mem_toList, bne_iff_ne, ne_eq, Std.compare_eq_iff_eq]
  exact ⟨fun h a hs ht ↦ h a hs a ht rfl, fun h a hs b ht hab ↦ h a hs (hab ▸ ht)⟩

/-! ### Sets are determined by their members -/

/-- Ascending lists with the same members are the same list. -/
theorem eq_of_mem_iff {l₁ l₂ : List α} (h₁ : l₁.Pairwise fun a b ↦ compare a b = .lt)
    (h₂ : l₂.Pairwise fun a b ↦ compare a b = .lt) (h : ∀ a, a ∈ l₁ ↔ a ∈ l₂) : l₁ = l₂ := by
  induction l₁ generalizing l₂ with
  | nil =>
    cases l₂ with
    | nil => rfl
    | cons b bs => exact absurd ((h b).2 List.mem_cons_self) List.not_mem_nil
  | cons a as ih =>
    cases l₂ with
    | nil => exact absurd ((h a).1 List.mem_cons_self) List.not_mem_nil
    | cons b bs =>
      obtain ⟨ha, has⟩ := List.pairwise_cons.1 h₁
      obtain ⟨hb, hbs⟩ := List.pairwise_cons.1 h₂
      have hab : a = b := by
        rcases List.mem_cons.1 ((h a).1 List.mem_cons_self) with hab | hab
        · exact hab
        rcases List.mem_cons.1 ((h b).2 List.mem_cons_self) with hba | hba
        · exact hba.symm
        exact absurd (TransCmp.lt_trans (hb a hab) (ha b hba)) (by simp)
      subst hab
      refine congrArg _ (ih has hbs fun c ↦ ?_)
      constructor
      · intro hc
        rcases List.mem_cons.1 ((h c).1 (List.mem_cons_of_mem _ hc)) with rfl | hc'
        · exact absurd (ha c hc) (by simp)
        · exact hc'
      · intro hc
        rcases List.mem_cons.1 ((h c).2 (List.mem_cons_of_mem _ hc)) with rfl | hc'
        · exact absurd (hb c hc) (by simp)
        · exact hc'

/-- Sets with the same members are equal. -/
@[ext] theorem ext {s t : SortedSet α} (h : ∀ a, a ∈ s ↔ a ∈ t) : s = t :=
  toList_inj.1 (eq_of_mem_iff s.ascending t.ascending h)

/-- The list a set is made from counts only through its members. -/
theorem ofList_eq_ofList_iff {l₁ l₂ : List α} :
    ofList l₁ = ofList l₂ ↔ ∀ a, a ∈ l₁ ↔ a ∈ l₂ :=
  ⟨fun h a ↦ by rw [← mem_ofList, h, mem_ofList], fun h ↦ ext fun a ↦ by simp [h a]⟩

/-- The list of a set gives the set back. -/
@[simp] theorem ofList_toList (s : SortedSet α) : ofList s.toList = s :=
  ext fun a ↦ by simp

end SortedSet

end OffsetLogic
