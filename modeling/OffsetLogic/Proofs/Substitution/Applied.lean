import OffsetLogic.Clause.Basic

/-!
# What an application of a substitution gives

Applying a substitution can fail at every occurrence of a variable. When it succeeds, it succeeded
everywhere: the image of an application is the application of the images of its arguments
(`Term.bindM_app_eq_ok`), the image of a variable is what its walk ends at
(`Substitution.applyAvoiding_var_eq_ok`), and the literals of an image are the images of the
literals (`Clause.mem_pos_apply`, `Clause.mem_neg_apply`).

Two kinds of statement stand side by side. An **inversion** says what a result tells about its
parts, and is what most proofs need: they are about images that exist. An **equation** says what the
computation is, errors included, and is needed where two computations are shown to be the same
(`Substitution.followFrom_eq`, `Substitution.applyAvoiding_var`, `Substitution.applyAvoiding_app`).

Argument lists are traversed in the order of their items, up to the first that fails. The lemmas
about such traversals say what is shared by all of them, for any errors and any items: a traversal
succeeds exactly when each item does, and its results are those of the items. Everything about terms
and literals goes through them, so that no proof about a substitution opens a list.

A clause is a pair of sets, so its image may have fewer literals than the clause. What is said of
literals is therefore membership, and not position.
-/

namespace OffsetLogic

/-! ### Computations that succeed -/

universe u

section Except

variable {α β ε : Type} {f : α → Except ε β} {l : List α} {bs : List β}

theorem Except.bind_eq_ok_iff {m : Except ε α} {g : α → Except ε β} {b : β} :
    (m >>= g) = .ok b ↔ ∃ a, m = .ok a ∧ g a = .ok b := by
  cases m with
  | error e => exact iff_of_false (fun h ↦ nomatch h) fun ⟨_, h, _⟩ ↦ nomatch h
  | ok a => exact ⟨fun h ↦ ⟨a, rfl, h⟩, fun ⟨_, ha, h⟩ ↦ by cases ha; exact h⟩

theorem mapM_cons_eq_ok {a : α} : (a :: l).mapM f = .ok bs ↔
    ∃ b bs', f a = .ok b ∧ l.mapM f = .ok bs' ∧ bs = b :: bs' := by
  rw [List.mapM_cons]
  simp only [Except.bind_eq_ok_iff]
  constructor
  · rintro ⟨b, hb, bs', hbs', h⟩
    exact ⟨b, bs', hb, hbs', (Except.ok.inj h).symm⟩
  · rintro ⟨b, bs', hb, hbs', rfl⟩
    exact ⟨b, hb, bs', hbs', rfl⟩

/-- When every item succeeds, the results are the results of the items. -/
theorem mem_of_mapM_eq_ok (h : l.mapM f = .ok bs) {b : β} : b ∈ bs ↔ ∃ a ∈ l, f a = .ok b := by
  induction l generalizing bs with
  | nil =>
    cases h
    simp
  | cons a l ih =>
    obtain ⟨c, cs, hc, hcs, rfl⟩ := mapM_cons_eq_ok.1 h
    simp [ih hcs, hc, eq_comm (b := b)]

theorem exists_of_mapM_eq_ok (h : l.mapM f = .ok bs) {a : α} (ha : a ∈ l) : ∃ b, f a = .ok b := by
  induction l generalizing bs with
  | nil => cases ha
  | cons c l ih =>
    obtain ⟨b, bs', hb, hbs', rfl⟩ := mapM_cons_eq_ok.1 h
    rcases List.mem_cons.1 ha with rfl | ha
    · exact ⟨b, hb⟩
    · exact ih hbs' ha

/-- When every item succeeds, so does the list. -/
theorem exists_mapM_eq_ok (h : ∀ a ∈ l, ∃ b, f a = .ok b) : ∃ bs, l.mapM f = .ok bs := by
  induction l with
  | nil => exact ⟨[], rfl⟩
  | cons a l ih =>
    obtain ⟨b, hb⟩ := h a List.mem_cons_self
    obtain ⟨bs, hbs⟩ := ih fun c hc ↦ h c (List.mem_cons_of_mem a hc)
    exact ⟨b :: bs, mapM_cons_eq_ok.2 ⟨b, bs, hb, hbs, rfl⟩⟩

/-- When results agree with their items, the lists do. -/
theorem map_eq_map_of_mapM_eq_ok {γ : Type u} {p : α → γ} {q : β → γ} (h : l.mapM f = .ok bs)
    (hpq : ∀ a ∈ l, ∀ b, f a = .ok b → q b = p a) : bs.map q = l.map p := by
  induction l generalizing bs with
  | nil =>
    cases h
    rfl
  | cons a l ih =>
    obtain ⟨b, bs', hb, hbs', rfl⟩ := mapM_cons_eq_ok.1 h
    rw [List.map_cons, List.map_cons, hpq a List.mem_cons_self b hb,
      ih hbs' fun c hc ↦ hpq c (List.mem_cons_of_mem a hc)]

/-- When items give the results that agree with them, so does the list. -/
theorem mapM_eq_ok_of_map_eq_map {γ : Type u} {p : α → γ} {q : β → γ} (h : bs.map q = l.map p)
    (hpq : ∀ a ∈ l, ∀ b, q b = p a → f a = .ok b) : l.mapM f = .ok bs := by
  induction l generalizing bs with
  | nil =>
    rw [List.map_eq_nil_iff.1 h]
    rfl
  | cons a l ih =>
    obtain ⟨b, bs, rfl, hab, hl⟩ := List.map_eq_cons_iff.1 h
    exact mapM_cons_eq_ok.2 ⟨b, bs, hpq a List.mem_cons_self b hab,
      ih hl fun c hc ↦ hpq c (List.mem_cons_of_mem a hc), rfl⟩

theorem mapM_eq_ok_map {p : α → β} (h : ∀ a ∈ l, f a = .ok (p a)) : l.mapM f = .ok (l.map p) :=
  mapM_eq_ok_of_map_eq_map (List.map_id _) fun a ha b (hb : b = p a) ↦ hb ▸ h a ha

end Except

/-! ### Terms -/

namespace Term

variable {ε : Type} {f : String → Int64 → Except ε Term} {t u : Term}

/-- The image of an application has the name of the application and the images of its arguments. -/
theorem bindM_app_eq_ok {g : String} {ts : List Term} :
    (app g ts).bindM f = .ok u ↔ ∃ us, ts.mapM (bindM f) = .ok us ∧ u = .app g us := by
  rw [bindM, Except.bind_eq_ok_iff, bindArgsM_eq_mapM]
  exact exists_congr fun us ↦ and_congr_right fun _ ↦
    ⟨fun h ↦ (Except.ok.inj h).symm, fun h ↦ h ▸ rfl⟩

/-- Shifting for a variable is shifting; the variable is named in the error only. -/
theorem shiftFor_eq_ok {x : String} {k : Int64} :
    shiftFor x k t = .ok u ↔ t.shifted k = some u := by
  unfold shiftFor
  split <;> rename_i h <;> simp [h]

end Term

namespace Substitution

variable {s : Substitution} {expanding : List String} {x : String} {k : Int64} {u : Term}

/-- The image of a variable is the variable at the end of the walk, or the image of the value
there, shifted, or the variable itself when that value is being expanded. -/
theorem applyAvoiding_var_eq_ok : s.applyAvoiding expanding (.var x k) = .ok u ↔
    (∃ y j, s.follow x k = .ok (.free y j) ∧ u = .var y j) ∨
      ∃ y t j, s.follow x k = .ok (.bound y t j) ∧
        (y ∈ expanding ∧ u = .var x k ∨
          y ∉ expanding ∧
            ∃ r, s.applyAvoiding (y :: expanding) t = .ok r ∧ r.shifted j = some u) := by
  rw [applyAvoiding, Term.bindM]
  split
  · rename_i h
    simp [h]
  · rename_i y j h
    refine ⟨fun hu ↦ .inl ⟨y, j, h, (Except.ok.inj hu).symm⟩, ?_⟩
    rintro (⟨y', j', h', rfl⟩ | ⟨y', t', j', h', -⟩)
    · rw [h] at h'
      cases h'
      rfl
    · rw [h] at h'
      cases h'
  · rename_i y t j h
    by_cases hy : y ∈ expanding
    · simp [h, hy, and_assoc, eq_comm (a := u)]
    · simp [h, hy, and_assoc, Except.bind_eq_ok_iff, Term.shiftFor_eq_ok]

/-- A term is rebuilt from the images of its variables. -/
theorem applyAvoiding_eq_bindM (t : Term) :
    s.applyAvoiding expanding t = t.bindM fun x k ↦ s.applyAvoiding expanding (.var x k) := by
  rw [applyAvoiding]
  congr
  funext x k
  rw [applyAvoiding, Term.bindM]

/-! ### Equations -/

/-- The walk in steps: it ends where it has been before, at an unbound name, at a value or at a sum
out of range, and otherwise goes on. -/
theorem followFrom_eq (s : Substitution) (path : List (String × Int64)) (x : String) (k : Int64) :
    s.followFrom path x k =
      match leastSince x path with
      | some e => .ok (.free e.1 e.2)
      | none =>
        match s.get? x with
        | none => .ok (.free x k)
        | some (.var y step) =>
          match k.add? step with
          | some j => s.followFrom ((x, k) :: path) y j
          | none => .error ⟨x, k, .var y step⟩
        | some u => .ok (.bound x u k) := by
  rw [followFrom]
  cases leastSince x path with
  | some e => rfl
  | none =>
    cases s.get? x with
    | none => rfl
    | some u =>
      cases u with
      | const | app => rfl
      | var y step =>
        cases hj : k.add? step <;> simp only [hj]

/-- The walk from a variable without a binding ends at once. -/
theorem follow_of_get?_eq_none (hx : s.get? x = none) : s.follow x k = .ok (.free x k) := by
  rw [follow, followFrom_eq, hx]
  rfl

theorem applyAvoiding_const (a : Value) :
    s.applyAvoiding expanding (.const a) = .ok (.const a) := by
  rw [applyAvoiding_eq_bindM]
  rfl

/-- The image of a variable, errors included. -/
theorem applyAvoiding_var (s : Substitution) (expanding : List String) (x : String) (k : Int64) :
    s.applyAvoiding expanding (.var x k) =
      match s.follow x k with
      | .error e => .error e
      | .ok (.free y j) => .ok (.var y j)
      | .ok (.bound y u j) =>
        if y ∈ expanding then .ok (.var x k)
        else s.applyAvoiding (y :: expanding) u >>= Term.shiftFor y j := by
  rw [applyAvoiding, Term.bindM]
  cases s.follow x k with
  | error e => rfl
  | ok e =>
    cases e with
    | free y j => rfl
    | bound y u j =>
      dsimp only
      split <;> rfl

/-- The image of an application, errors included. -/
theorem applyAvoiding_app (s : Substitution) (expanding : List String) (g : String)
    (ts : List Term) : s.applyAvoiding expanding (.app g ts) =
      Term.app g <$> ts.mapM (s.applyAvoiding expanding) := by
  have hfun : (Term.bindM fun x k ↦ s.applyAvoiding expanding (.var x k)) =
      s.applyAvoiding expanding := funext fun t ↦ (applyAvoiding_eq_bindM t).symm
  rw [applyAvoiding_eq_bindM, Term.bindM, Term.bindArgsM_eq_mapM, hfun, map_eq_pure_bind]

end Substitution

/-! ### Clauses -/

namespace Clause

variable {c d : Clause} {s : Substitution} {t u : Term}

/-- Applying succeeds at a clause when it does at all its literals. -/
theorem apply_eq_ok : c.apply s = .ok d ↔ ∃ pos neg, c.pos.toList.mapM s.apply = .ok pos ∧
    c.neg.toList.mapM s.apply = .ok neg ∧ d = ofLists pos neg := by
  unfold apply
  simp only [Except.bind_eq_ok_iff]
  constructor
  · rintro ⟨pos, hpos, neg, hneg, h⟩
    exact ⟨pos, neg, hpos, hneg, (Except.ok.inj h).symm⟩
  · rintro ⟨pos, neg, hpos, hneg, rfl⟩
    exact ⟨pos, hpos, neg, hneg, rfl⟩

/-- The positive literals of an image are the images of the positive literals. -/
theorem mem_pos_apply (h : c.apply s = .ok d) : u ∈ d.pos ↔ ∃ t ∈ c.pos, s.apply t = .ok u := by
  obtain ⟨pos, neg, hpos, -, rfl⟩ := apply_eq_ok.1 h
  exact SortedSet.mem_ofList.trans (mem_of_mapM_eq_ok hpos)

theorem mem_neg_apply (h : c.apply s = .ok d) : u ∈ d.neg ↔ ∃ t ∈ c.neg, s.apply t = .ok u := by
  obtain ⟨pos, neg, -, hneg, rfl⟩ := apply_eq_ok.1 h
  exact SortedSet.mem_ofList.trans (mem_of_mapM_eq_ok hneg)

/-- No positive literal is lost; two may have become one. -/
theorem exists_image_of_mem_pos (h : c.apply s = .ok d) (ht : t ∈ c.pos) :
    ∃ u ∈ d.pos, s.apply t = .ok u := by
  obtain ⟨pos, neg, hpos, -, -⟩ := apply_eq_ok.1 h
  obtain ⟨u, hu⟩ := exists_of_mapM_eq_ok hpos ht
  exact ⟨u, (mem_pos_apply h).2 ⟨t, ht, hu⟩, hu⟩

theorem exists_image_of_mem_neg (h : c.apply s = .ok d) (ht : t ∈ c.neg) :
    ∃ u ∈ d.neg, s.apply t = .ok u := by
  obtain ⟨pos, neg, -, hneg, -⟩ := apply_eq_ok.1 h
  obtain ⟨u, hu⟩ := exists_of_mapM_eq_ok hneg ht
  exact ⟨u, (mem_neg_apply h).2 ⟨t, ht, hu⟩, hu⟩

end Clause

end OffsetLogic
