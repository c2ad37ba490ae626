import Mathlib.Data.List.Sections
import OffsetLogic.Proofs.Renaming.Canonical
import OffsetLogic.Proofs.Resolution.Total

/-!
# Vocabularies

A vocabulary is a finite list of predicates with their arities and a finite list of constants. What
is inferred from flat clauses over a vocabulary is over the vocabulary again. For predicates that is
plain, since literals keep theirs. For constants it is so because unification is **most general**: a
valuation that makes two literals equal still does when it gives names a variable in the place of
every constant that the vocabulary lacks, so the unifier did not need one of those
(`Vocabulary.exists_solves`).

Over a vocabulary there are finitely many shapes of literals, and a factored clause has each of them
at most once with either sign. This bounds the number of its variables (`Vocabulary.nameBound`), so
there are **finitely many factored clauses with canonical names**
(`Vocabulary.Covers.over_canonicalize`).

## Why the bound has to be on names

Flat literals over a vocabulary are infinitely many, because their variables may have any names, and
so are the clauses, because they may have any number of literals. Both are settled together.
Factoring merges literals of one sign and shape, so the number of literals of a factored clause is
at most twice that of the shapes. Each literal has as many variables as its arity, so the number of
names is bounded as well, and canonical naming makes them the first ones. The literals over these
names are a finite list (`Vocabulary.literals`), and the clauses over them are the sets of its
members.

The bound is far from tight and is never computed; all that matters is that it does not depend on
the run. The number of argument places of all predicates bounds each arity without a maximum having
to be taken, and the shapes are counted as the literals whose only variable name is blank.
-/

namespace OffsetLogic

open Model Substitution

/-- Predicates with their arities, and constants. -/
structure Vocabulary where
  /-- The names of predicates with their arities. -/
  predicates : List (String × Nat)
  /-- The constants. -/
  values : List Value

namespace Vocabulary

variable {V : Vocabulary} {n : Nat} {s : Substitution} {a b t u : Term} {c d : Clause}

/-- A constant of the vocabulary or a variable without offset. -/
def IsLeaf (V : Vocabulary) (t : Term) : Prop :=
  (∃ v ∈ V.values, t = .const v) ∨ ∃ x, t = .var x 0

/-- A predicate of the vocabulary applied to as many leaves as its arity says. -/
def IsLiteral (V : Vocabulary) (t : Term) : Prop :=
  ∃ g ts, t = .app g ts ∧ (g, ts.length) ∈ V.predicates ∧ ∀ a ∈ ts, V.IsLeaf a

/-- All literals of the clause are over the vocabulary. -/
def Covers (V : Vocabulary) (c : Clause) : Prop := ∀ t, t ∈ c.pos ∨ t ∈ c.neg → V.IsLiteral t

theorem IsLeaf.isLeaf (h : V.IsLeaf t) : t.isLeaf .zero = true := by
  obtain ⟨v, -, rfl⟩ | ⟨x, rfl⟩ := h <;> rfl

theorem IsLiteral.isFlat (h : V.IsLiteral t) : t.isFlat .zero = true := by
  obtain ⟨g, ts, rfl, -, hts⟩ := h
  exact Term.isFlat_app_iff.2 fun a ha ↦ (hts a ha).isLeaf

/-- Clauses over a vocabulary are flat and have no offsets. -/
theorem Covers.isFlat (h : V.Covers c) : c.isFlat .zero = true :=
  Clause.isFlat_iff.2 ⟨fun t ht ↦ (h t (.inl ht)).isFlat, fun t ht ↦ (h t (.inr ht)).isFlat⟩

theorem IsLeaf.rename (h : V.IsLeaf t) (f : String → String) : V.IsLeaf (t.rename f) := by
  obtain ⟨v, hv, rfl⟩ | ⟨x, rfl⟩ := h
  · exact .inl ⟨v, hv, rfl⟩
  · exact .inr ⟨f x, rfl⟩

theorem IsLiteral.rename (h : V.IsLiteral t) (f : String → String) : V.IsLiteral (t.rename f) := by
  obtain ⟨g, ts, rfl, hg, hts⟩ := h
  refine ⟨g, ts.map (Term.rename f), ?_, by rwa [List.length_map], fun a ha ↦ ?_⟩
  · rw [Term.rename, Term.renameArgs_eq_map]
  · obtain ⟨b, hb, rfl⟩ := List.mem_map.1 ha
    exact (hts b hb).rename f

/-- Renaming keeps a clause over its vocabulary. -/
theorem Covers.rename (h : V.Covers c) (f : String → String) : V.Covers (c.rename f) := by
  rintro t (ht | ht)
  · obtain ⟨u, hu, rfl⟩ := SortedSet.mem_map.1 ht
    exact (h u (.inl hu)).rename f
  · obtain ⟨u, hu, rfl⟩ := SortedSet.mem_map.1 ht
    exact (h u (.inr hu)).rename f

/-! ### The vocabulary of a list of literals -/

/-- The predicate of a literal, with its arity. -/
def predicate? : Term → Option (String × Nat)
  | .app g ts => some (g, ts.length)
  | _ => none

/-- The value of a constant. -/
def value? : Term → Option Value
  | .const v => some v
  | _ => none

/-- The constants among the arguments of a literal. -/
def argumentValues : Term → List Value
  | .app _ ts => ts.filterMap value?
  | _ => []

/-- What occurs in a list of literals. -/
def ofLiterals (l : List Term) : Vocabulary := ⟨l.filterMap predicate?, l.flatMap argumentValues⟩

/-- Flat literals are over the vocabulary of what occurs in them. -/
theorem isLiteral_ofLiterals {l : List Term} (ht : t ∈ l) (hflat : t.isFlat .zero = true) :
    (ofLiterals l).IsLiteral t := by
  cases t with
  | const | var => cases hflat
  | app g ts =>
    refine ⟨g, ts, rfl, List.mem_filterMap.2 ⟨_, ht, rfl⟩, fun a ha ↦ ?_⟩
    have haflat := Term.isFlat_app_iff.1 hflat a ha
    cases a with
    | app => cases haflat
    | var x k => exact .inr ⟨x, by rw [eq_zero_of_allows haflat]⟩
    | const v =>
      have hv : v ∈ argumentValues (.app g ts) := List.mem_filterMap.2 ⟨_, ha, rfl⟩
      exact .inl ⟨v, List.mem_flatMap.2 ⟨_, ht, hv⟩, rfl⟩

/-! ### Unifiers bring in no constants -/

/-- The valuation gives no name a constant that the vocabulary lacks. -/
def Values (V : Vocabulary) (w : String → Term) : Prop := ∀ x v, w x = .const v → v ∈ V.values

open Classical in
/-- A variable in the place of a constant that the vocabulary lacks, other terms as they are. -/
noncomputable def restrict (V : Vocabulary) (t : Term) : Term :=
  if ∃ v, t = .const v ∧ v ∉ V.values then .var "" 0 else t

/-- A restricted term is no constant that the vocabulary lacks. -/
theorem mem_values_of_restrict {v : Value} (h : V.restrict t = .const v) : v ∈ V.values := by
  unfold restrict at h
  split at h
  · cases h
  · rename_i hno
    by_contra hv
    exact hno ⟨v, h, hv⟩

/-- Values of leaves are restricted when the values of names are. -/
theorem eval_restrict {w : String → Term} (ht : V.IsLeaf t) :
    herbrand.eval (fun x ↦ V.restrict (w x)) t = V.restrict (herbrand.eval w t) := by
  obtain ⟨v, hv, rfl⟩ | ⟨x, rfl⟩ := ht
  · rw [eval_herbrand_const, eval_herbrand_const, restrict, if_neg]
    rintro ⟨v', hv', hno⟩
    cases hv'
    exact hno hv
  · rw [eval_herbrand_var, eval_herbrand_var]

/-- The bindings of a unifier have a solution without constants that the vocabulary lacks. -/
theorem exists_solves (ha : V.IsLiteral a) (hb : V.IsLiteral b)
    (h : mgu? n a b = some (some s)) : ∃ w, herbrand.Solves w s ∧ V.Values w := by
  have hshallow := shallow_of_mgu? ha.isFlat hb.isFlat h
  obtain ⟨al⟩ := nonempty_aliasing_of_mgu? h
  obtain ⟨w, hw, -⟩ := Model.exists_solves (M := herbrand) hshallow.acyclic al (.var · 0)
  have heq := eval_eq_of_mgu? h hw
  refine ⟨fun x ↦ V.restrict (w x), ?_, fun x v ↦ mem_values_of_restrict⟩
  -- the restricted values still make the literals equal, so they solve the bindings
  have heq' : herbrand.eval (fun x ↦ V.restrict (w x)) a =
      herbrand.eval (fun x ↦ V.restrict (w x)) b := by
    obtain ⟨g, ts, rfl, -, hts⟩ := ha
    obtain ⟨g', us, rfl, -, hus⟩ := hb
    rw [eval_herbrand_app, eval_herbrand_app] at heq ⊢
    obtain ⟨rfl, hargs⟩ := Term.app.inj heq
    have hargs' := congrArg (List.map V.restrict) hargs
    rw [List.map_map, List.map_map] at hargs'
    rw [List.map_congr_left fun t ht ↦ eval_restrict (w := w) (hts t ht),
      List.map_congr_left fun t ht ↦ eval_restrict (w := w) (hus t ht)]
    exact congrArg _ hargs'
  obtain ⟨s', hs', hsolves⟩ := solves_of_mgu? ha.isFlat hb.isFlat heq' h
  cases hs'
  exact hsolves

/-- The image of a literal is a literal of the vocabulary. -/
theorem IsLiteral.apply (hs : s.Shallow .zero) (al : s.Aliasing) {w : String → Term}
    (hw : herbrand.Solves w s) (hV : V.Values w) (ht : V.IsLiteral t) (h : s.apply t = .ok u) :
    V.IsLiteral u := by
  have hflat := hs.isFlat_apply al ht.isFlat h
  have hval : herbrand.eval w u = herbrand.eval w t :=
    eval_apply hs.acyclic al hw (fun _ _ _ ↦ rfl) h
  obtain ⟨g, ts, rfl, hg, hts⟩ := ht
  cases u with
  | const | var => cases hflat
  | app g' us =>
    rw [eval_herbrand_app, eval_herbrand_app] at hval
    obtain ⟨rfl, hargs⟩ := Term.app.inj hval
    have hlen : us.length = ts.length := by simpa using congrArg List.length hargs
    refine ⟨g', us, rfl, hlen ▸ hg, fun a ha ↦ ?_⟩
    have haflat := Term.isFlat_app_iff.1 hflat a ha
    cases a with
    | app => cases haflat
    | var x k => exact .inr ⟨x, by rw [eq_zero_of_allows haflat]⟩
    | const v =>
      -- a constant in the image is the value of a leaf
      have hmem : Term.const v ∈ ts.map (herbrand.eval w) := by
        rw [← hargs, ← eval_herbrand_const (v := w) v]
        exact List.mem_map_of_mem ha
      obtain ⟨b, hb, hbv⟩ := List.mem_map.1 hmem
      obtain ⟨v', hv', rfl⟩ | ⟨x, rfl⟩ := hts b hb
      · rw [eval_herbrand_const] at hbv
        exact .inl ⟨v', hv', hbv.symm⟩
      · rw [eval_herbrand_var] at hbv
        exact .inl ⟨v, hV x v hbv, rfl⟩

/-- Applying a unifier of two literals of the vocabulary keeps a clause over it. -/
theorem Covers.apply (ha : V.IsLiteral a) (hb : V.IsLiteral b) (hs : mgu? n a b = some (some s))
    (hc : V.Covers c) (h : c.apply s = .ok d) : V.Covers d := by
  obtain ⟨w, hw, hV⟩ := exists_solves ha hb hs
  have hshallow := shallow_of_mgu? ha.isFlat hb.isFlat hs
  obtain ⟨al⟩ := nonempty_aliasing_of_mgu? hs
  rintro u (hu | hu)
  · obtain ⟨t, ht, htu⟩ := (Clause.mem_pos_apply h).1 hu
    exact (hc t (.inl ht)).apply hshallow al hw hV htu
  · obtain ⟨t, ht, htu⟩ := (Clause.mem_neg_apply h).1 hu
    exact (hc t (.inr ht)).apply hshallow al hw hV htu

/-! ### Inferences -/

/-- Both literals of a pair of a covered clause are literals of the vocabulary. -/
theorem Covers.of_mem_pairs {e : Term × Term} (hc : V.Covers c) (he : e ∈ c.pairs) :
    V.IsLiteral e.1 ∧ V.IsLiteral e.2 := by
  obtain ⟨h₁, h₂⟩ | ⟨h₁, h₂⟩ := Clause.mem_of_mem_pairs he
  · exact ⟨hc _ (.inl h₁), hc _ (.inl h₂)⟩
  · exact ⟨hc _ (.inr h₁), hc _ (.inr h₂)⟩

/-- Factoring keeps a clause over its vocabulary. -/
theorem Covers.factored (h : c.Factored n d) (hc : V.Covers c) : V.Covers d := by
  induction h with
  | done => exact hc
  | merge hpairs _ hs happly _ _ ih =>
    have he := hc.of_mem_pairs (hpairs ▸ List.mem_append_right _ List.mem_cons_self)
    exact ih (hc.apply he.1 he.2 hs happly)

/-- What is inferred from clauses over a vocabulary comes from a factored clause over it. -/
theorem Covers.infer? {k : Clash} {i : Inference} (h : (k.infer? n).run = some (.ok (some i)))
    (hl : V.Covers k.left) (hr : V.Covers k.right) (hp : k.positive ∈ k.left.pos)
    (hn : k.negated ∈ k.right.neg) :
    ∃ d, V.Covers d ∧ d.ShapesApart ∧ i.resolvent = d.canonicalize := by
  obtain ⟨s, c, d, hs, hc, hd, hi, -⟩ := Clash.infer?_eq_ok_some h
  have hrem : V.Covers k.remainder := by
    rintro t (ht | ht)
    · exact (Clash.mem_pos_remainder.1 ht).elim (fun ht ↦ hl t (.inl ht.1)) fun ht ↦ hr t (.inl ht)
    · exact (Clash.mem_neg_remainder.1 ht).elim (fun ht ↦ hl t (.inr ht)) fun ht ↦ hr t (.inr ht.1)
  have hc := hrem.apply (hl _ (.inl hp)) (hr _ (.inr hn)) hs hc
  exact ⟨d, hc.factored (Clause.factored_of_factor hd), Clause.shapesApart_of_factor hd, hi⟩

/-! ### The literals over a vocabulary -/

/-- The constants of the vocabulary, and variables of the given names. -/
def leaves (V : Vocabulary) (names : List String) : List Term :=
  V.values.map .const ++ names.map (.var · 0)

/-- The literals over the vocabulary whose variables have the given names. -/
def literals (V : Vocabulary) (names : List String) : List Term :=
  V.predicates.flatMap fun g ↦
    (List.replicate g.2 (V.leaves names)).sections.map (.app g.1)

theorem mem_leaves {names : List String} :
    t ∈ V.leaves names ↔ V.IsLeaf t ∧ t.occurrences ⊆ names := by
  rw [leaves, List.mem_append, List.mem_map, List.mem_map]
  constructor
  · rintro (⟨v, hv, rfl⟩ | ⟨x, hx, rfl⟩)
    · exact ⟨.inl ⟨v, hv, rfl⟩, List.nil_subset _⟩
    · exact ⟨.inr ⟨x, rfl⟩, List.cons_subset.2 ⟨hx, List.nil_subset _⟩⟩
  · rintro ⟨⟨v, hv, rfl⟩ | ⟨x, rfl⟩, hnames⟩
    · exact .inl ⟨v, hv, rfl⟩
    · exact .inr ⟨x, hnames List.mem_cons_self, rfl⟩

/-- The lists of a given length over a list are its sections. -/
theorem mem_sections_replicate {α : Type} {k : Nat} {l as : List α} :
    as ∈ (List.replicate k l).sections ↔ as.length = k ∧ ∀ a ∈ as, a ∈ l := by
  rw [List.mem_sections]
  induction k generalizing as with
  | zero => cases as <;> simp
  | succ k ih =>
    cases as with
    | nil => simp [List.replicate_succ]
    | cons a as => simp [List.replicate_succ, ih, and_left_comm]

theorem mem_literals {names : List String} :
    t ∈ V.literals names ↔ V.IsLiteral t ∧ t.occurrences ⊆ names := by
  simp only [literals, List.mem_flatMap, List.mem_map, mem_sections_replicate]
  constructor
  · rintro ⟨⟨g, k⟩, hg, ts, ⟨rfl, hts⟩, rfl⟩
    refine ⟨⟨g, ts, rfl, hg, fun a ha ↦ (mem_leaves.1 (hts a ha)).1⟩, fun x hx ↦ ?_⟩
    obtain ⟨a, ha, hxa⟩ := Term.mem_occurrences_app.1 hx
    exact (mem_leaves.1 (hts a ha)).2 hxa
  · rintro ⟨⟨g, ts, rfl, hg, hts⟩, hnames⟩
    refine ⟨(g, ts.length), hg, ts, ⟨rfl, fun a ha ↦ mem_leaves.2 ⟨hts a ha, fun x hx ↦ ?_⟩⟩, rfl⟩
    exact hnames (Term.mem_occurrences_app.2 ⟨a, ha, hx⟩)

/-! ### Factored clauses over a vocabulary -/

/-- The number of argument places of all predicates, which bounds their arities. -/
def arityBound (V : Vocabulary) : Nat := (V.predicates.flatMap fun p ↦ List.range p.2).length

/-- The number of shapes of literals. -/
def shapeCount (V : Vocabulary) : Nat := (V.literals [""]).length

/-- A bound on the number of variables of a factored clause. -/
def nameBound (V : Vocabulary) : Nat := 2 * V.shapeCount * V.arityBound

/-- The canonical names that factored clauses need. -/
def names (V : Vocabulary) : List String := (List.range V.nameBound).map canonicalName

/-- Lists that are joined are no longer than their number times the longest of them. -/
theorem length_flatMap_le {α β : Type} {f : α → List β} {l : List α} {k : Nat}
    (h : ∀ a ∈ l, (f a).length ≤ k) : (l.flatMap f).length ≤ l.length * k := by
  induction l with
  | nil => simp
  | cons a l ih =>
    have ha := h a List.mem_cons_self
    have ih := ih fun b hb ↦ h b (List.mem_cons_of_mem a hb)
    rw [List.flatMap_cons, List.length_append, List.length_cons, Nat.succ_mul]
    omega

/-- A literal has at most as many variables as its arity, and so as the argument places of all
predicates. -/
theorem IsLiteral.length_occurrences_le (h : V.IsLiteral t) :
    t.occurrences.length ≤ V.arityBound := by
  obtain ⟨g, ts, rfl, hg, hts⟩ := h
  rw [Term.occurrences, Term.occurrencesArgs_eq_flatMap]
  have hleaf : ∀ a ∈ ts, a.occurrences.length ≤ 1 := by
    intro a ha
    obtain ⟨v, -, rfl⟩ | ⟨x, rfl⟩ := hts a ha
    · exact Nat.zero_le 1
    · exact Nat.le_refl 1
  have hplaces : List.range ts.length ∈ V.predicates.map fun p ↦ List.range p.2 :=
    List.mem_map.2 ⟨_, hg, rfl⟩
  calc (ts.flatMap Term.occurrences).length
      ≤ ts.length * 1 := length_flatMap_le hleaf
    _ = (List.range ts.length).length := by rw [Nat.mul_one, List.length_range]
    _ ≤ V.arityBound := (List.sublist_flatten_of_mem hplaces).length_le

/-- A set of literals of different shapes has at most as many members as there are shapes. -/
theorem size_le_shapeCount {l : SortedSet Term} (hl : ∀ t, t ∈ l → V.IsLiteral t)
    (hshapes : Set.InjOn Term.shape {t | t ∈ l}) : l.size ≤ V.shapeCount := by
  have hnodup : (l.toList.map Term.shape).Nodup :=
    (SortedSet.nodup_toList l).map_on fun t ht u hu htu ↦ hshapes ht hu htu
  have hsub : l.toList.map Term.shape ⊆ V.literals [""] := by
    intro u hu
    obtain ⟨t, ht, rfl⟩ := List.mem_map.1 hu
    refine mem_literals.2 ⟨(hl t ht).rename _, fun x hx ↦ ?_⟩
    rw [Term.shape, Term.occurrences_rename] at hx
    obtain ⟨y, -, rfl⟩ := List.mem_map.1 hx
    exact List.mem_singleton_self ""
  simpa [SortedSet.size, shapeCount] using hnodup.length_le_of_subset hsub

/-- A factored clause has at most as many variables as two signs, the shapes and the arities allow.
-/
theorem Covers.size_variableNames_le (hc : V.Covers c) (hshapes : c.ShapesApart) :
    c.variableNames.size ≤ V.nameBound := by
  have hsub : c.variableNames.toList ⊆ c.atoms.flatMap Term.occurrences := by
    intro x hx
    obtain ⟨t, ht, hxt⟩ := Clause.mem_variableNames.1 (SortedSet.mem_toList.1 hx)
    exact List.mem_flatMap.2 ⟨t, ht, hxt⟩
  have hpos := size_le_shapeCount (fun t ht ↦ hc t (.inl ht)) hshapes.1
  have hneg := size_le_shapeCount (fun t ht ↦ hc t (.inr ht)) hshapes.2
  have hatoms : c.atoms.length ≤ 2 * V.shapeCount := by
    have hlen : c.atoms.length = c.pos.size + c.neg.size := List.length_append
    omega
  calc c.variableNames.size
      ≤ (c.atoms.flatMap Term.occurrences).length :=
        (SortedSet.nodup_toList c.variableNames).length_le_of_subset hsub
    _ ≤ c.atoms.length * V.arityBound :=
        length_flatMap_le fun t ht ↦ (hc t (List.mem_append.1 ht)).length_occurrences_le
    _ ≤ V.nameBound := Nat.mul_le_mul_right _ hatoms

/-- The canonical form of a factored clause is one of finitely many clauses. -/
theorem Covers.over_canonicalize (hc : V.Covers c) (hshapes : c.ShapesApart) :
    c.canonicalize.Over (V.literals V.names) := by
  intro t ht
  refine mem_literals.2 ⟨hc.rename _ t ht, fun x hx ↦ ?_⟩
  have hmem : x ∈ c.canonicalize.variableNames :=
    Clause.mem_variableNames.2 ⟨t, List.mem_append.2 ht, hx⟩
  obtain ⟨y, hy, rfl⟩ := Clause.mem_variableNames_rename.1 hmem
  obtain ⟨i, hi, hyi⟩ := c.bijOn_canonicalName.mapsTo hy
  have hi : i < V.nameBound := Nat.lt_of_lt_of_le hi (hc.size_variableNames_le hshapes)
  exact List.mem_map.2 ⟨i, List.mem_range.2 hi, hyi⟩

end Vocabulary

end OffsetLogic
