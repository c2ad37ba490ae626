import OffsetLogic.Proofs.Renaming.Variant
import OffsetLogic.Proofs.Substitution.Resolved
import OffsetLogic.Proofs.Unification.Symmetry

/-!
# Unification of renamed terms

To rename two terms is not to rename their unifier. The least name of an alias class represents it,
and a renaming can make another member the least one.

**Without offsets** this has no consequence. Offsets are then zero throughout, so the members of a
class stand for one another, and two runs on terms that differ in their names stay in step: they
identify the same names and bind the same values, under names that are renamed (`Matches`), whatever
the representatives are. A step of unification keeps this (`Matches.solve_value`,
`Matches.solve_names`), and by induction a run does (`IsRenamed.unify`).

What the two unifiers are applied to becomes the same up to one injective renaming, which takes
representatives to representatives (`Matches.exists_apply`).

With offsets all of this fails: what `x = y + 1` makes of `x` and `y` depends on which of the names
is the lesser.

## The names are a set

A renaming is injective on the names that occur and anything elsewhere, so everything here is
relative to a set `S` of names that contains those of the terms. Names of the other run are images
of `S`. That a run does not leave these sets is part of the invariant (`Substitution.PlainOver`),
and so are the zero offsets.

## Cyclic bindings are included

Nothing asks for acyclic bindings. An application leaves an occurrence in place when its value is
being expanded, so an image may mention names that have a value. In both runs the same occurrences
are left, but under their own names, and not under those of their representatives. The renaming of
the images therefore treats two kinds of names differently: a name without a value goes to the
representative of its image, and a name with one goes to its image (`counterpart`). That this is
injective is where the classes of both runs are compared (`Matches.injOn_counterpart`).
-/

namespace OffsetLogic

open Substitution

variable {S T : Set String} {f : String → String} {s s' : Substitution} {a b t u : Term}
variable {x y g : String} {k : Int64} {ts : List Term} {d : Int} {c : Clause}

/-! ### Terms without offsets -/

namespace Term

/-- The variables of the term are names of `S` without offsets. -/
def PlainOver (S : Set String) (t : Term) : Prop := ∀ e ∈ t.places, e.1 ∈ S ∧ e.2 = 0

theorem plainOver_const (v : Value) : (const v).PlainOver S := fun _ he ↦ nomatch he

theorem plainOver_var : (var x k).PlainOver S ↔ x ∈ S ∧ k = 0 := by simp [PlainOver, places]

theorem plainOver_app : (app g ts).PlainOver S ↔ ∀ t ∈ ts, t.PlainOver S := by
  simp only [PlainOver, mem_places_app]
  exact ⟨fun h t ht e he ↦ h e ⟨t, ht, he⟩, fun h e ⟨t, ht, he⟩ ↦ h t ht e he⟩

/-- Renaming changes names and no offsets. -/
theorem places_rename (f : String → String) (t : Term) :
    (t.rename f).places = t.places.map fun e ↦ (f e.1, e.2) := by
  induction t with
  | const | var => rfl
  | app g ts ih =>
    rw [rename, places, places, renameArgs_eq_map, placesArgs_eq_flatMap, placesArgs_eq_flatMap,
      List.flatMap_map, List.map_flatMap]
    exact List.flatMap_congr ih

/-- The names of a renamed term are images, and still without offsets. -/
theorem PlainOver.rename (h : t.PlainOver S) (f : String → String) :
    (t.rename f).PlainOver (f '' S) := by
  intro e he
  rw [places_rename] at he
  obtain ⟨p, hp, rfl⟩ := List.mem_map.1 he
  exact ⟨⟨p.1, (h p hp).1, rfl⟩, (h p hp).2⟩

theorem isVariable_rename (f : String → String) (t : Term) :
    (t.rename f).isVariable = t.isVariable := by
  cases t <;> rfl

end Term

/-! ### Bindings without offsets -/

namespace Substitution

/-- The names of the bindings are names of `S`, and have no offsets. -/
def PlainOver (S : Set String) (s : Substitution) : Prop :=
  ∀ x t, s.get? x = some t → x ∈ S ∧ t.PlainOver S

namespace PlainOver

theorem empty : (∅ : Substitution).PlainOver S := fun _ _ h ↦ nomatch h

theorem bind (hs : s.PlainOver S) (hx : x ∈ S) (ht : t.PlainOver S) : (s.bind x t).PlainOver S := by
  intro y u hy
  rw [get?_bind] at hy
  split at hy
  · rename_i hyx
    cases hy
    exact ⟨hyx ▸ hx, ht⟩
  · exact hs y u hy

/-- Connected names are not apart, and they are names of the bindings unless they are the same. -/
theorem of_connected (hs : s.PlainOver S) (h : s.Connected x y d) : d = 0 ∧ (x ∈ S → y ∈ S) := by
  induction h with
  | refl x => exact ⟨rfl, id⟩
  | forth hxy _ ih =>
    obtain ⟨hy, rfl⟩ := Term.plainOver_var.1 (hs _ _ hxy).2
    exact ⟨by simp [ih.1], fun _ ↦ ih.2 hy⟩
  | back hyx _ ih =>
    obtain ⟨-, rfl⟩ := Term.plainOver_var.1 (hs _ _ hyx).2
    exact ⟨by simp [ih.1], fun _ ↦ ih.2 (hs _ _ hyx).1⟩

/-- Every name stands beside its representative, as their distance is a sum of zeros. -/
theorem height_eq_zero (hs : s.PlainOver S) (al : s.Aliasing) (x : String) : al.height x = 0 :=
  (hs.of_connected (al.connected_root x)).1

theorem root_mem (hs : s.PlainOver S) (al : s.Aliasing) (hx : x ∈ S) : al.root x ∈ S :=
  (hs.of_connected (al.connected_root x)).2 hx

/-- Sums of zeros are in range. -/
theorem follow_ne_error (hs : s.PlainOver S) (x : String) (err : ShiftError) :
    s.follow x 0 ≠ .error err := by
  have hzero : s.Retraced {e | e.2 = 0} := by
    rintro ⟨x, k⟩ rfl y l hx
    obtain ⟨-, rfl⟩ := Term.plainOver_var.1 (hs x _ hx).2
    exact ⟨0, Int64.add?_zero 0, rfl⟩
  exact hzero.followFrom_ne_error rfl err

/-- The walk to a class without a value ends at its representative. -/
theorem follow_of_not_rigid (hs : s.PlainOver S) (al : s.Aliasing) (hx : ¬ s.Rigid (al.root x)) :
    s.follow x 0 = .ok (.free (al.root x) 0) := by
  cases h : s.follow x 0 with
  | error err => exact absurd h (hs.follow_ne_error x err)
  | ok endpoint =>
    cases endpoint with
    | free y j =>
      obtain ⟨rfl, hj, -⟩ := al.follow_free h
      rw [hs.height_eq_zero al, Int.add_zero] at hj
      rw [Int64.toInt_inj.1 hj]
    | bound y u j =>
      obtain ⟨rfl, -, hget, hu⟩ := al.follow_bound h
      exact absurd ⟨u, hget, hu⟩ hx

/-- The walk to a class with a value ends at it. -/
theorem follow_of_value (hs : s.PlainOver S) (al : s.Aliasing) (hx : s.get? (al.root x) = some t)
    (ht : t.isVariable = false) : s.follow x 0 = .ok (.bound (al.root x) t 0) := by
  cases h : s.follow x 0 with
  | error err => exact absurd h (hs.follow_ne_error x err)
  | ok endpoint =>
    cases endpoint with
    | free y j =>
      obtain ⟨rfl, -, hfree⟩ := al.follow_free h
      exact absurd ⟨t, hx, ht⟩ hfree
    | bound y u j =>
      obtain ⟨rfl, hj, hget, -⟩ := al.follow_bound h
      rw [hs.height_eq_zero al, Int.add_zero] at hj
      rw [hx] at hget
      rw [Int64.toInt_inj.1 hj, Option.some.inj hget]

end PlainOver

/-! ### Bindings that differ in their names -/

/-- The bindings of `s'` identify the same names as those of `s` and give them the same values, the
names of `S` being renamed by `f`. Nothing is said of the representatives. -/
structure Matches (S : Set String) (f : String → String) (al : s.Aliasing) (al' : s'.Aliasing) :
    Prop where
  plain : s.PlainOver S
  plain' : s'.PlainOver (f '' S)
  root_iff : ∀ {x y}, x ∈ S → y ∈ S → (al.root x = al.root y ↔ al'.root (f x) = al'.root (f y))
  value : ∀ {x t}, x ∈ S → s.get? (al.root x) = some t → t.isVariable = false →
    s'.get? (al'.root (f x)) = some (t.rename f)
  free : ∀ {x}, x ∈ S → ¬ s.Rigid (al.root x) → ¬ s'.Rigid (al'.root (f x))

/-- The bindings are the same up to names and representatives. -/
def IsRenamed (S : Set String) (f : String → String) (s s' : Substitution) : Prop :=
  ∃ (al : s.Aliasing) (al' : s'.Aliasing), Matches S f al al'

/-- Without bindings every name is its own class, in both runs; that no two are identified is
injectivity. -/
theorem IsRenamed.empty (hf : Set.InjOn f S) : IsRenamed S f ∅ ∅ :=
  ⟨.empty, .empty,
    { plain := .empty
      plain' := .empty
      root_iff := fun hx hy ↦ (hf.eq_iff hx hy).symm
      value := fun _ h ↦ nomatch h
      free := fun _ _ ⟨_, h, _⟩ ↦ nomatch h }⟩

/-- Solving for a name without an offset binds it to the other side as it is. -/
theorem solve_of_isVariable (ht : t.isVariable = false) (x : String) :
    s.solve x 0 t = some (s.bind x t) := by
  cases t with
  | var => cases ht
  | app => rfl
  | const v =>
    cases v with
    | symbol => rfl
    | int n =>
      have hn : n.sub? 0 = some n := Int64.sub?_eq_some_iff.2 (by simp)
      rw [solve, hn]
      rfl

/-- Two names without offsets are bound to each other. -/
theorem solve_var_zero (hxy : x ≠ y) :
    s.solve x 0 (.var y 0) = some ((s.bind x (.var y 0)).bind y (.var x 0)) := by
  rw [solve, if_neg hxy]
  rfl

/-- Members of a joined class are mapped to `m`, and others to themselves. -/
theorem joined_eq_iff {m i j : String} (hm : m = x ∨ m = y) :
    (if i = x ∨ i = y then m else i) = (if j = x ∨ j = y then m else j) ↔
      i = j ∨ (i = x ∨ i = y) ∧ (j = x ∨ j = y) := by
  split <;> split <;> rename_i hi hj
  · exact iff_of_true rfl (.inr ⟨hi, hj⟩)
  · exact iff_of_false (fun h ↦ hj (h ▸ hm)) fun h ↦ hj (h.elim (· ▸ hi) (·.2))
  · exact iff_of_false (fun h ↦ hi (h ▸ hm)) fun h ↦ hi (h.elim (· ▸ hj) (·.1))
  · exact ⟨.inl, fun h ↦ h.resolve_right fun h ↦ hi h.1⟩

theorem get?_link {z : String} (hz : ¬ (z = x ∨ z = y)) :
    ((s.bind x t).bind y u).get? z = s.get? z := by
  rw [not_or] at hz
  rw [get?_bind, if_neg hz.2, get?_bind, if_neg hz.1]

/-- Other names keep their values. -/
theorem rigid_link_iff {z : String} (hz : ¬ (z = x ∨ z = y)) :
    ((s.bind x t).bind y u).Rigid z ↔ s.Rigid z := by
  rw [Rigid, get?_link hz, Rigid]

/-- The two names that are linked have no values. -/
theorem not_rigid_link {m : String} {j k : Int64} (hm : m = x ∨ m = y) :
    ¬ ((s.bind x (.var y j)).bind y (.var x k)).Rigid m := by
  rintro ⟨t, ht, htv⟩
  rw [get?_bind] at ht
  split at ht
  · cases ht
    cases htv
  · rename_i hmy
    rw [get?_bind, if_pos (hm.resolve_right hmy)] at ht
    cases ht
    cases htv

namespace Matches

variable {al : s.Aliasing} {al' : s'.Aliasing}

/-- A class without a value is given one, in both runs. -/
theorem solve_value (h : Matches S f al al') (hx : x ∈ S) (ht : t.PlainOver S)
    (htv : t.isVariable = false) :
    Option.Rel (IsRenamed S f) (s.solve (al.root x) 0 t)
      (s'.solve (al'.root (f x)) 0 (t.rename f)) := by
  have htv' : (t.rename f).isVariable = false := (Term.isVariable_rename f t).trans htv
  rw [solve_of_isVariable htv, solve_of_isVariable htv']
  refine .some ⟨al.bindRigid (al.root_root x) htv, al'.bindRigid (al'.root_root _) htv', ?_⟩
  refine
    { plain := h.plain.bind (h.plain.root_mem al hx) ht
      plain' := h.plain'.bind (h.plain'.root_mem al' ⟨x, hx, rfl⟩) (ht.rename f)
      root_iff := h.root_iff
      value := fun {z u} hz hu huv ↦ ?_
      free := fun {z} hz hzfree ↦ ?_ }
  · -- a class has the new value in one run when it has it in the other
    show (s'.bind _ _).get? (al'.root (f z)) = _
    have hu : (s.bind (al.root x) t).get? (al.root z) = some u := hu
    rw [get?_bind] at hu ⊢
    by_cases hzx : al.root z = al.root x
    · rw [if_pos hzx] at hu
      rw [if_pos ((h.root_iff hz hx).1 hzx), Option.some.inj hu]
    · rw [if_neg hzx] at hu
      rw [if_neg (mt (h.root_iff hz hx).2 hzx)]
      exact h.value hz hu huv
  · have hzfree : ¬ (s.bind (al.root x) t).Rigid (al.root z) := hzfree
    have hzx : al.root z ≠ al.root x := fun hzx ↦
      hzfree ⟨t, by rw [get?_bind, if_pos hzx], htv⟩
    rintro ⟨u, hu, huv⟩
    have hu : (s'.bind (al'.root (f x)) (t.rename f)).get? (al'.root (f z)) = some u := hu
    rw [get?_bind, if_neg (mt (h.root_iff hz hx).2 hzx)] at hu
    refine h.free hz ?_ ⟨u, hu, huv⟩
    rintro ⟨v, hv, hvv⟩
    exact hzfree ⟨v, by rw [get?_bind, if_neg hzx, hv], hvv⟩

/-- Two classes without values are joined in both runs, or are one class in both. -/
theorem solve_names (h : Matches S f al al') (hx : x ∈ S) (hy : y ∈ S)
    (hxfree : ¬ s.Rigid (al.root x)) (hyfree : ¬ s.Rigid (al.root y)) :
    Option.Rel (IsRenamed S f) (s.solve (al.root x) 0 (.var (al.root y) 0))
      (s'.solve (al'.root (f x)) 0 (.var (al'.root (f y)) 0)) := by
  by_cases hxy : al.root x = al.root y
  · rw [solve, solve, if_pos hxy, if_pos ((h.root_iff hx hy).1 hxy), if_pos rfl, if_pos rfl]
    exact .some ⟨al, al', h⟩
  · have hxy' : al'.root (f x) ≠ al'.root (f y) := mt (h.root_iff hx hy).2 hxy
    rw [solve_var_zero hxy, solve_var_zero hxy']
    obtain ⟨al₁, m, hm, hroot⟩ := al.exists_join (al.root_root x) hxfree (al.root_root y) hyfree hxy
      (f := 0) (b := 0) rfl
    obtain ⟨al₁', m', hm', hroot'⟩ := al'.exists_join (al'.root_root _) (h.free hx hxfree)
      (al'.root_root _) (h.free hy hyfree) hxy' (f := 0) (b := 0) rfl
    have hjoined : ∀ {z}, z ∈ S → ((al.root z = al.root x ∨ al.root z = al.root y) ↔
        (al'.root (f z) = al'.root (f x) ∨ al'.root (f z) = al'.root (f y))) := fun hz ↦
      or_congr (h.root_iff hz hx) (h.root_iff hz hy)
    have hrx : al.root x ∈ S := h.plain.root_mem al hx
    have hry : al.root y ∈ S := h.plain.root_mem al hy
    have hrx' : al'.root (f x) ∈ f '' S := h.plain'.root_mem al' ⟨x, hx, rfl⟩
    have hry' : al'.root (f y) ∈ f '' S := h.plain'.root_mem al' ⟨y, hy, rfl⟩
    refine .some ⟨al₁, al₁', ?_⟩
    refine
      { plain := (h.plain.bind hrx (Term.plainOver_var.2 ⟨hry, rfl⟩)).bind hry
          (Term.plainOver_var.2 ⟨hrx, rfl⟩)
        plain' := (h.plain'.bind hrx' (Term.plainOver_var.2 ⟨hry', rfl⟩)).bind hry'
          (Term.plainOver_var.2 ⟨hrx', rfl⟩)
        root_iff := fun {z w} hz hw ↦ ?_
        value := fun {z u} hz hu huv ↦ ?_
        free := fun {z} hz hzfree ↦ ?_ }
    · rw [hroot, hroot, hroot', hroot', joined_eq_iff hm, joined_eq_iff hm', hjoined hz, hjoined hw,
        h.root_iff hz hw]
    · -- the joined class has no value, the other classes have kept theirs
      rw [hroot] at hu
      rw [hroot']
      by_cases hzj : al.root z = al.root x ∨ al.root z = al.root y
      · rw [if_pos hzj] at hu
        exact absurd ⟨u, hu, huv⟩ (not_rigid_link hm)
      · rw [if_neg hzj, get?_link hzj] at hu
        rw [if_neg (mt (hjoined hz).2 hzj), get?_link (mt (hjoined hz).2 hzj)]
        exact h.value hz hu huv
    · rw [hroot] at hzfree
      rw [hroot']
      by_cases hzj : al.root z = al.root x ∨ al.root z = al.root y
      · rw [if_pos ((hjoined hz).1 hzj)]
        exact not_rigid_link hm'
      · rw [if_neg hzj, rigid_link_iff hzj] at hzfree
        rw [if_neg (mt (hjoined hz).2 hzj), rigid_link_iff (mt (hjoined hz).2 hzj)]
        exact h.free hz hzfree

/-- What a term resolves to is, in both runs, a representative without a value, or it is not a
variable and differs in its names. -/
theorem resolve (h : Matches S f al al') (ha : a.PlainOver S) :
    (∃ x ∈ S, ¬ s.Rigid (al.root x) ∧ s.resolve a = some (.var (al.root x) 0) ∧
      s'.resolve (a.rename f) = some (.var (al'.root (f x)) 0)) ∨
    ∃ t, t.isVariable = false ∧ t.PlainOver S ∧ s.resolve a = some t ∧
      s'.resolve (a.rename f) = some (t.rename f) := by
  cases a with
  | const v => exact .inr ⟨_, rfl, ha, rfl, rfl⟩
  | app g ts => exact .inr ⟨_, rfl, ha, rfl, rfl⟩
  | var x k =>
    obtain ⟨hx, rfl⟩ := Term.plainOver_var.1 ha
    rw [Term.rename, Substitution.resolve, Substitution.resolve]
    by_cases hrigid : s.Rigid (al.root x)
    · obtain ⟨t, ht, htv⟩ := hrigid
      refine .inr ⟨t, htv, (h.plain _ _ ht).2, ?_, ?_⟩
      · rw [h.plain.follow_of_value al ht htv]
        exact t.shifted_zero
      · rw [h.plain'.follow_of_value al' (h.value hx ht htv)
          ((Term.isVariable_rename f t).trans htv)]
        exact (t.rename f).shifted_zero
    · refine .inl ⟨x, hx, hrigid, ?_, ?_⟩
      · rw [h.plain.follow_of_not_rigid al hrigid]
      · rw [h.plain'.follow_of_not_rigid al' (h.free hx hrigid)]

end Matches

/-- The run on renamed terms stays in step. -/
theorem IsRenamed.unify (h : IsRenamed S f s s') (n : Nat) (ha : a.PlainOver S)
    (hb : b.PlainOver S) : InStep (IsRenamed S f) (unify n a b s)
      (unify n (a.rename f) (b.rename f) s') := by
  induction n generalizing a b s s' with
  | zero => exact .none
  | succ n ih =>
    have hargs : ∀ ts us : List Term, (∀ t ∈ ts, t.PlainOver S) → (∀ u ∈ us, u.PlainOver S) →
        InStep (IsRenamed S f) ((ts.zip us).foldlM (fun s e ↦ OffsetLogic.unify n e.1 e.2 s) s)
          (((ts.map (Term.rename f)).zip (us.map (Term.rename f))).foldlM
            (fun s e ↦ OffsetLogic.unify n e.1 e.2 s) s') := by
      intro ts us hts hus
      rw [List.zip_map]
      refine .foldlM (List.forall₂_map_right_iff.2 (List.forall₂_same.2 fun e he s s' h ↦ ?_)) h
      obtain ⟨hl, hr⟩ := List.of_mem_zip he
      exact ih h (hts _ hl) (hus _ hr)
    obtain ⟨al, al', h⟩ := h
    rw [OffsetLogic.unify, OffsetLogic.unify]
    obtain ⟨x, hx, hxfree, hra, hra'⟩ | ⟨t, htv, ht, hra, hra'⟩ := h.resolve ha <;>
      obtain ⟨y, hy, hyfree, hrb, hrb'⟩ | ⟨u, huv, hu, hrb, hrb'⟩ := h.resolve hb <;>
      rw [hra, hra', hrb, hrb']
    · exact .some (h.solve_names hx hy hxfree hyfree)
    · exact .some (h.solve_value hx hu huv)
    · have hsolve := h.solve_value hy ht htv
      cases t with
      | var => cases htv
      | const | app => exact .some hsolve
    · cases t with
      | var => cases htv
      | const v =>
        cases u with
        | var => cases huv
        | app => exact .some .none
        | const w =>
          dsimp only [Term.rename]
          by_cases hvw : v = w
          · rw [if_pos hvw, if_pos hvw]
            exact .some (.some ⟨al, al', h⟩)
          · rw [if_neg hvw, if_neg hvw]
            exact .some .none
      | app g ts =>
        cases u with
        | var => cases huv
        | const => exact .some .none
        | app g' us =>
          have hts := Term.plainOver_app.1 ht
          have hus := Term.plainOver_app.1 hu
          dsimp only [Term.rename]
          rw [Term.renameArgs_eq_map, Term.renameArgs_eq_map, Term.isVariable_rename,
            List.length_map, List.length_map]
          by_cases hgg : g = g' ∧ ts.length = us.length
          · rw [if_pos hgg, if_pos hgg]
            cases b.isVariable
            · exact hargs ts us hts hus
            · exact hargs us ts hus hts
          · rw [if_neg hgg, if_neg hgg]
            exact .some .none

/-! ### Images under bindings that differ in their names -/

/-- The names of `S` that an image can mention: representatives without a value, and, where an
occurrence was left in place, names with one. -/
def settled (S : Set String) (al : s.Aliasing) : Set String :=
  {x ∈ S | s.Rigid (al.root x) ∨ al.root x = x}

open Classical in
/-- What the other run has in the place of a settled name. -/
noncomputable def counterpart (f : String → String) (al : s.Aliasing) (al' : s'.Aliasing)
    (x : String) : String :=
  if s.Rigid (al.root x) then f x else al'.root (f x)

namespace Matches

variable {al : s.Aliasing} {al' : s'.Aliasing} {expanding expanding' : List String}

/-- Settled names of one class have a value, and are renamed by `f`; others are told apart by their
classes. -/
theorem injOn_counterpart (h : Matches S f al al') (hf : Set.InjOn f S) :
    Set.InjOn (counterpart f al al') (settled S al) := by
  rintro x ⟨hx, hxs⟩ y ⟨hy, hys⟩ hxy
  -- the class of what stands for a name tells its own class
  have hclass : ∀ z, al'.root (counterpart f al al' z) = al'.root (f z) := by
    intro z
    unfold counterpart
    split
    · rfl
    · exact al'.root_root _
  have hroot : al.root x = al.root y := by
    rw [h.root_iff hx hy, ← hclass x, ← hclass y, hxy]
  unfold counterpart at hxy
  rw [hroot] at hxy
  split at hxy
  · exact hf hx hy hxy
  · rename_i hfree
    rw [← hys.resolve_left hfree, ← hroot, hxs.resolve_left (hroot ▸ hfree)]

/-- Both runs can be applied to a term, and the images differ in their names. -/
theorem exists_applyAvoiding (h : Matches S f al al')
    (hexp : ∀ {x}, x ∈ S → (al.root x ∈ expanding ↔ al'.root (f x) ∈ expanding'))
    (ht : t.PlainOver S) :
    ∃ u, u.PlainOver (settled S al) ∧ s.applyAvoiding expanding t = .ok u ∧
      s'.applyAvoiding expanding' (t.rename f) = .ok (u.rename (counterpart f al al')) := by
  induction hp : s.pending expanding using Nat.strong_induction_on
    generalizing expanding expanding' t with
  | _ p ihp =>
    induction t with
    | const v =>
      exact ⟨.const v, Term.plainOver_const v, applyAvoiding_const v, applyAvoiding_const v⟩
    | var x k =>
      obtain ⟨hx, rfl⟩ := Term.plainOver_var.1 ht
      rw [Term.rename, applyAvoiding_var, applyAvoiding_var]
      by_cases hrigid : s.Rigid (al.root x)
      · obtain ⟨v, hv, hvv⟩ := hrigid
        rw [h.plain.follow_of_value al hv hvv, h.plain'.follow_of_value al' (h.value hx hv hvv)
          ((Term.isVariable_rename f v).trans hvv)]
        dsimp only
        by_cases hmem : al.root x ∈ expanding
        · have hmem' := (hexp hx).1 hmem
          refine ⟨.var x 0, Term.plainOver_var.2 ⟨⟨hx, .inl ⟨v, hv, hvv⟩⟩, rfl⟩, if_pos hmem, ?_⟩
          rw [if_pos hmem', Term.rename, counterpart, if_pos ⟨v, hv, hvv⟩]
        · have hmem' := mt (hexp hx).2 hmem
          have hexp' : ∀ {z}, z ∈ S → (al.root z ∈ al.root x :: expanding ↔
              al'.root (f z) ∈ al'.root (f x) :: expanding') := fun hz ↦ by
            rw [List.mem_cons, List.mem_cons, h.root_iff hz hx, hexp hz]
          obtain ⟨u, hu, hr, hr'⟩ := ihp _ (hp ▸ pending_cons_lt (mem_names_of_get? hv) hmem) hexp'
            (h.plain _ _ hv).2 rfl
          refine ⟨u, hu, ?_, ?_⟩
          · rw [if_neg hmem, hr]
            exact (Term.shiftFor_eq_ok (x := al.root x)).2 u.shifted_zero
          · rw [if_neg hmem', hr']
            exact (Term.shiftFor_eq_ok (x := al'.root (f x))).2 (Term.shifted_zero _)
      · have hroot := al.root_root x
        have hrx : al.root x ∈ S := h.plain.root_mem al hx
        refine ⟨.var (al.root x) 0, Term.plainOver_var.2 ⟨⟨hrx, .inr hroot⟩, rfl⟩, ?_, ?_⟩
        · rw [h.plain.follow_of_not_rigid al hrigid]
        · rw [h.plain'.follow_of_not_rigid al' (h.free hx hrigid), Term.rename, counterpart, hroot,
            if_neg hrigid, (h.root_iff hrx hx).1 hroot]
    | app g ts ih =>
      have hts := Term.plainOver_app.1 ht
      choose! F hF using fun t ht' ↦ ih t ht' (hts t ht')
      refine ⟨.app g (ts.map F), ?_, ?_, ?_⟩
      · rw [Term.plainOver_app]
        intro u hu
        obtain ⟨t, ht', rfl⟩ := List.mem_map.1 hu
        exact (hF t ht').1
      · rw [applyAvoiding_app, mapM_eq_ok_map fun t ht' ↦ (hF t ht').2.1]
        rfl
      · have himages : (ts.map (Term.rename f)).mapM (s'.applyAvoiding expanding') =
            .ok ((ts.map F).map (Term.rename (counterpart f al al'))) := by
          rw [List.mapM_map, List.map_map]
          exact mapM_eq_ok_map fun t ht' ↦ (hF t ht').2.2
        rw [Term.rename, Term.rename, Term.renameArgs_eq_map, Term.renameArgs_eq_map,
          applyAvoiding_app, himages]
        rfl

/-- Both runs can be applied to a term: at the beginning nothing is being expanded. -/
theorem exists_apply (h : Matches S f al al') (ht : t.PlainOver S) :
    ∃ u, u.PlainOver (settled S al) ∧ s.apply t = .ok u ∧
      s'.apply (t.rename f) = .ok (u.rename (counterpart f al al')) :=
  h.exists_applyAvoiding (fun _ ↦ iff_of_false List.not_mem_nil List.not_mem_nil) ht

end Matches

end Substitution

/-! ### Clauses -/

namespace Clause

/-- The variables of the clause are names of `S` without offsets. -/
def PlainOver (S : Set String) (c : Clause) : Prop := ∀ t, t ∈ c.pos ∨ t ∈ c.neg → t.PlainOver S

/-- Whether no variable of the clause has an offset. -/
def isOffsetFree (c : Clause) : Bool := c.atoms.all fun t ↦ t.places.all fun e ↦ e.2 == 0

/-- A clause without offsets is over its own names. -/
theorem plainOver_variableNames (hc : c.isOffsetFree = true) :
    c.PlainOver {x | x ∈ c.variableNames} := by
  intro t ht e he
  have hatom : t ∈ c.atoms := List.mem_append.2 ht
  have hzero := List.all_eq_true.1 (List.all_eq_true.1 hc t hatom) e he
  refine ⟨mem_variableNames.2 ⟨t, hatom, ?_⟩, beq_iff_eq.1 hzero⟩
  exact Term.mem_occurrences_iff.2 ⟨e.2, he⟩

/-- A clause over any set has no offsets. -/
theorem PlainOver.isOffsetFree (hc : c.PlainOver S) : c.isOffsetFree = true :=
  List.all_eq_true.2 fun t ht ↦ List.all_eq_true.2 fun e he ↦
    beq_iff_eq.2 (hc t (List.mem_append.1 ht) e he).2

theorem PlainOver.mono (hc : c.PlainOver S) (hST : S ⊆ T) : c.PlainOver T :=
  fun t ht e he ↦ ⟨hST (hc t ht e he).1, (hc t ht e he).2⟩

/-- The names of the clause are in the set. -/
theorem PlainOver.variableNames_subset (hc : c.PlainOver S) : {x | x ∈ c.variableNames} ⊆ S := by
  intro x hx
  obtain ⟨t, ht, hx⟩ := mem_variableNames.1 hx
  obtain ⟨k, hk⟩ := Term.mem_occurrences_iff.1 hx
  exact (hc t (List.mem_append.1 ht) _ hk).1

theorem PlainOver.rename (hc : c.PlainOver S) (f : String → String) :
    (c.rename f).PlainOver (f '' S) := by
  rintro t (ht | ht)
  · obtain ⟨u, hu, rfl⟩ := SortedSet.mem_map.1 ht
    exact (hc u (.inl hu)).rename f
  · obtain ⟨u, hu, rfl⟩ := SortedSet.mem_map.1 ht
    exact (hc u (.inr hu)).rename f

end Clause

/-- When items give the results of the members whose images they are, so does the image of a set. -/
theorem SortedSet.exists_mapM_map {ε : Type} {l : SortedSet Term} {h F : Term → Term}
    {g : Term → Except ε Term} (hg : ∀ t, t ∈ l → g (h t) = .ok (F t)) :
    ∃ us, (l.map h).toList.mapM g = .ok us ∧ SortedSet.ofList us = l.map F := by
  obtain ⟨us, hus⟩ := exists_mapM_eq_ok (l := (l.map h).toList) (f := g) fun t ht ↦ by
    obtain ⟨u, hu, rfl⟩ := SortedSet.mem_map.1 (SortedSet.mem_toList.1 ht)
    exact ⟨_, hg u hu⟩
  refine ⟨us, hus, SortedSet.ext fun v ↦ ?_⟩
  simp only [SortedSet.mem_ofList, mem_of_mapM_eq_ok hus, SortedSet.mem_toList, SortedSet.mem_map]
  constructor
  · rintro ⟨_, ⟨t, ht, rfl⟩, hv⟩
    exact ⟨t, ht, Except.ok.inj ((hg t ht).symm.trans hv)⟩
  · rintro ⟨t, ht, rfl⟩
    exact ⟨h t, ⟨t, ht, rfl⟩, hg t ht⟩

/-- Bindings that are the same up to names and representatives make variants of a clause. -/
theorem Substitution.IsRenamed.exists_variants (h : IsRenamed S f s s') (hf : Set.InjOn f S)
    (hc : c.PlainOver S) :
    ∃ d d' : Clause, c.apply s = .ok d ∧ (c.rename f).apply s' = .ok d' ∧
      d.isOffsetFree = true ∧ d.IsVariant d' := by
  obtain ⟨al, al', h⟩ := h
  choose! F hF using fun (t : Term) (ht : t.PlainOver S) ↦ h.exists_apply ht
  have hpos : ∀ t, t ∈ c.pos → t.PlainOver S := fun t ht ↦ hc t (.inl ht)
  have hneg : ∀ t, t ∈ c.neg → t.PlainOver S := fun t ht ↦ hc t (.inr ht)
  obtain ⟨ps, hps, hps'⟩ := SortedSet.exists_mapM_map fun t ht ↦ (hF t (hpos t ht)).2.2
  obtain ⟨ns, hns, hns'⟩ := SortedSet.exists_mapM_map fun t ht ↦ (hF t (hneg t ht)).2.2
  have hplain : (Clause.mk (c.pos.map F) (c.neg.map F)).PlainOver (settled S al) := by
    rintro _ (hu | hu)
    · obtain ⟨t, ht, rfl⟩ := SortedSet.mem_map.1 hu
      exact (hF t (hpos t ht)).1
    · obtain ⟨t, ht, rfl⟩ := SortedSet.mem_map.1 hu
      exact (hF t (hneg t ht)).1
  refine ⟨⟨c.pos.map F, c.neg.map F⟩, .ofLists ps ns, Clause.apply_eq_ok.2 ⟨_, _,
    mapM_eq_ok_map fun t ht ↦ (hF t (hpos t ht)).2.1,
    mapM_eq_ok_map fun t ht ↦ (hF t (hneg t ht)).2.1, rfl⟩,
    Clause.apply_eq_ok.2 ⟨ps, ns, hps, hns, rfl⟩, hplain.isOffsetFree, counterpart f al al',
    (h.injOn_counterpart hf).mono hplain.variableNames_subset, ?_⟩
  rw [Clause.rename, SortedSet.map_map, SortedSet.map_map, Clause.ofLists, hps', hns']

end OffsetLogic
