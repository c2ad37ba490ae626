import OffsetLogic.Term.Order

/-!
# Substitutions

A substitution is a finite list of bindings `x ↦ t` in the order in which the names were first
bound, each name once. A binding states the value of the plain variable: `x + k` then stands for `t
+ k`. Bindings are **triangular**, so bound terms may mention bound variables, also cyclically;
`OffsetLogic.Substitution.Apply` says how they are followed.

Binding a name again overwrites its term and keeps its place. The order of the bindings can be seen
when they are listed, and is ignored when two substitutions are compared (`Same`). Lookup after
binding is settled by `get?_bind`, the listing by `names_bind`.

**That no name is bound twice is part of the type.** So a lookup does not depend on the place of a
binding (`get?_eq_some_iff_mem`), and a substitution may be read as a function from names to terms
wherever the order is not at issue, which is nearly everywhere: unification, resolving and applying
only ever look names up. The two views meet in `mem_names_iff`, by which a name is listed exactly
when it has a binding.

`Same` is decided by comparing the bindings of the names that either side lists
(`same_iff_forall_mem`), so statements about two substitutions up to order can be tested.
-/

namespace OffsetLogic

/-- Bindings of variable names to terms, in binding order, each name bound once. -/
structure Substitution where
  /-- The bindings in the order in which their names were first bound. -/
  bindings : List (String × Term)
  /-- No name is bound twice. -/
  nodup : (bindings.map Prod.fst).Nodup

namespace Substitution

/-- The substitution without bindings. -/
def empty : Substitution := ⟨[], .nil⟩

instance : EmptyCollection Substitution := ⟨empty⟩
instance : Inhabited Substitution := ⟨empty⟩

/-- The bound names in binding order. -/
def names (s : Substitution) : List String := s.bindings.map Prod.fst

def size (s : Substitution) : Nat := s.bindings.length

def isEmpty (s : Substitution) : Bool := s.bindings.isEmpty

/-- The term that `x` is bound to. -/
def get? (s : Substitution) (x : String) : Option Term := s.bindings.lookup x

/-- Looking up a name tries the first pair before the others. It is stated with an equation of
names, where the library has a test. -/
theorem lookup_cons (x : String) (b : String × Term) (bs : List (String × Term)) :
    (b :: bs).lookup x = if x = b.1 then some b.2 else bs.lookup x := by
  obtain ⟨y, u⟩ := b
  by_cases h : x = y
  · simp [h]
  · rw [List.lookup_cons, beq_false_of_ne h, if_neg h]

theorem bindings_inj {s t : Substitution} : s.bindings = t.bindings ↔ s = t := by
  cases s; cases t; simp

instance : DecidableEq Substitution := fun _ _ ↦ decidable_of_iff _ bindings_inj

/-! ### Binding a name -/

/-- The list of bindings with `x ↦ t` in the place of the old binding of `x`, or at the end. -/
def bindIn (x : String) (t : Term) : List (String × Term) → List (String × Term)
  | [] => [(x, t)]
  | b :: bs => if b.1 = x then (x, t) :: bs else b :: bindIn x t bs

/-- Binding a name keeps the listing of an old name and puts a new one at the end. -/
theorem map_fst_bindIn (x : String) (t : Term) (bs : List (String × Term)) :
    (bindIn x t bs).map Prod.fst
      = if x ∈ bs.map Prod.fst then bs.map Prod.fst else bs.map Prod.fst ++ [x] := by
  induction bs with
  | nil => rfl
  | cons b bs ih =>
    by_cases hb : b.1 = x
    · simp [bindIn, hb]
    · simp only [bindIn, hb, if_false, List.map_cons, ih, List.mem_cons, Ne.symm hb, false_or]
      split <;> rfl

/-- After binding a name in a list, looking up finds the new term for it and the old ones for the
others. -/
theorem lookup_bindIn (x y : String) (t : Term) (bs : List (String × Term)) :
    (bindIn x t bs).lookup y = if y = x then some t else bs.lookup y := by
  induction bs with
  | nil => simp [bindIn, lookup_cons]
  | cons b bs ih =>
    by_cases hb : b.1 = x
    · by_cases hy : y = x <;> simp [bindIn, lookup_cons, hb, hy]
    · by_cases hy : y = b.1
      · simp [bindIn, lookup_cons, hb, hy]
      · simp [bindIn, lookup_cons, hb, hy, ih]

/-- The substitution with `x` bound to `t`; an old binding of `x` is overwritten in its place. -/
def bind (s : Substitution) (x : String) (t : Term) : Substitution where
  bindings := bindIn x t s.bindings
  nodup := by
    rw [map_fst_bindIn]
    split
    · exact s.nodup
    · rename_i hx
      exact List.nodup_append.2 ⟨s.nodup, List.pairwise_singleton _ _,
        fun y hy z hz hyz ↦ hx (List.mem_singleton.1 hz ▸ hyz ▸ hy)⟩

/-- The substitution that binds the pairs of a list from left to right. -/
def ofList (bs : List (String × Term)) : Substitution :=
  bs.foldl (fun s b ↦ s.bind b.1 b.2) ∅

@[simp] theorem get?_empty (x : String) : (∅ : Substitution).get? x = none := rfl

/-- A name that is bound has the new term, and every other name what it had. -/
theorem get?_bind (s : Substitution) (x y : String) (t : Term) :
    (s.bind x t).get? y = if y = x then some t else s.get? y :=
  lookup_bindIn x y t s.bindings

@[simp] theorem names_empty : (∅ : Substitution).names = [] := rfl

/-- A name that is bound again keeps its place in the listing, and a new one comes last. -/
theorem names_bind (s : Substitution) (x : String) (t : Term) :
    (s.bind x t).names = if x ∈ s.names then s.names else s.names ++ [x] :=
  map_fst_bindIn x t s.bindings

/-- A name is listed exactly when it is bound to a term. -/
theorem mem_names_iff {s : Substitution} {x : String} : x ∈ s.names ↔ ∃ t, s.get? x = some t := by
  unfold names get?
  induction s.bindings with
  | nil => simp
  | cons b bs ih =>
    by_cases hx : x = b.1 <;> simp [lookup_cons, hx, ih]

theorem mem_names_of_get? {s : Substitution} {x : String} {t : Term} (h : s.get? x = some t) :
    x ∈ s.names :=
  mem_names_iff.2 ⟨t, h⟩

theorem get?_eq_none_iff {s : Substitution} {x : String} : s.get? x = none ↔ x ∉ s.names := by
  rw [mem_names_iff]
  cases s.get? x <;> simp

/-- The pairs of the list are the ones that are looked up, since no name is bound twice. -/
theorem get?_eq_some_iff_mem {s : Substitution} {x : String} {t : Term} :
    s.get? x = some t ↔ (x, t) ∈ s.bindings := by
  obtain ⟨bs, hnodup⟩ := s
  show bs.lookup x = some t ↔ (x, t) ∈ bs
  induction bs with
  | nil => exact iff_of_false (fun h ↦ nomatch h) List.not_mem_nil
  | cons b bs ih =>
    rw [List.map_cons, List.nodup_cons] at hnodup
    rw [lookup_cons, List.mem_cons]
    by_cases hx : x = b.1
    · -- the name is not bound again further on
      have hnot : (x, t) ∉ bs := fun h ↦ hnodup.1 (List.mem_map.2 ⟨_, h, hx⟩)
      rw [if_pos hx, Option.some_inj, Prod.ext_iff, or_iff_left hnot]
      exact ⟨fun h ↦ ⟨hx, h.symm⟩, fun h ↦ h.2.symm⟩
    · rw [if_neg hx, ih hnodup.2, Prod.ext_iff, or_iff_right fun h ↦ hx h.1]

/-! ### Equality up to binding order -/

/-- Two substitutions bind the same names to the same terms. -/
def Same (s t : Substitution) : Prop := ∀ x, s.get? x = t.get? x

/-- Only the listed names have to be compared, so the relation can be decided. -/
theorem same_iff_forall_mem {s t : Substitution} :
    s.Same t ↔ ∀ x ∈ s.names ++ t.names, s.get? x = t.get? x := by
  refine ⟨fun h x _ ↦ h x, fun h x ↦ ?_⟩
  by_cases hx : x ∈ s.names ++ t.names
  · exact h x hx
  · rw [List.mem_append, not_or] at hx
    rw [get?_eq_none_iff.2 hx.1, get?_eq_none_iff.2 hx.2]

instance (s t : Substitution) : Decidable (s.Same t) :=
  decidable_of_iff _ same_iff_forall_mem.symm

end Substitution

end OffsetLogic
