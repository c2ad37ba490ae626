import Mathlib.Data.List.Basic
import Mathlib.Order.Lattice
import OffsetLogic.Proofs.Substitution.Applied
import OffsetLogic.Unification

/-!
# Following and applying end

Bindings may lead from variable to variable around a cycle, and a variable may be bound to a term
that contains it. That the walk and the application end all the same is not a matter of the
bindings, but of what the two remember: the walk its path, the application the names it is
expanding.

**Without a measure.** `followWithin` and `applyWithin` make the same steps and nothing else stops
them than a budget of nested steps, so to end is to answer within some budget. The walk needs one
step for each bound name that is not on its path (`followWithin_eq_some`). An application is settled
by induction on the bound names that are not being expanded, and for each of them on the term.

**Expansions.** `applyWithin` also records which names it expanded inside which (`Expansion`). Down
a record no name comes twice: what is expanded inside a name avoids it (`NestsApart.of_cons`).

## Why a second definition

`follow` and `apply` are total functions, so that they end is part of their being defined, and a
statement about them cannot say it. In the versions with a budget the recursion is on the budget,
and the bindings do not enter the reason why they are defined. That they answer on all large
budgets, and answer what the total functions do, is then a statement, and it holds for **every**
substitution and term, whether a unification could have made it or not.

Records are kept in the version with a budget for the same reason: an expansion inside itself would
be visible there as a name that comes twice in a chain. The record belongs to the computation and
not to the result, and it includes the expansions made before an error.
-/

namespace OffsetLogic.Substitution

variable {s : Substitution} {expanding : List String} {x : String} {k : Int64} {n : Nat}

/-! ### The walk -/

/-- The walk from `x + k` in at most `n` steps. -/
def followWithin (s : Substitution) :
    Nat → List (String × Int64) → String → Int64 → Budgeted (Except ShiftError Endpoint)
  | 0, _, _, _ => none
  | n + 1, path, x, k =>
    match leastSince x path with
    | some e => some (.ok (.free e.1 e.2))
    | none =>
      match s.get? x with
      | none => some (.ok (.free x k))
      | some (.var y step) =>
        match k.add? step with
        | some j => s.followWithin n ((x, k) :: path) y j
        | none => some (.error ⟨x, k, .var y step⟩)
      | some u => some (.ok (.bound x u k))

/-- A walk ends after one step for each bound name that is not on its path. -/
theorem followWithin_eq_some {path : List (String × Int64)}
    (h : s.pending (path.map Prod.fst) < n) :
    s.followWithin n path x k = some (s.followFrom path x k) := by
  induction n generalizing path x k with
  | zero => cases h
  | succ n ih =>
    rw [followWithin, followFrom_eq]
    cases hpath : leastSince x path with
    | some e => rfl
    | none =>
      cases hx : s.get? x with
      | none => rfl
      | some u =>
        cases u with
        | const | app => rfl
        | var y step =>
          dsimp only
          cases k.add? step with
          | none => rfl
          | some j =>
            -- the step puts `x` on the path, so that fewer names are left
            have hlt : s.pending (x :: path.map Prod.fst) < s.pending (path.map Prod.fst) :=
              pending_cons_lt (mem_names_of_get? hx) (leastSince_eq_none_iff.1 hpath)
            exact ih (Nat.lt_of_lt_of_le hlt (Nat.le_of_lt_succ h))

/-- What a term stands for at its top, found in at most `n` steps. -/
def resolveWithin (s : Substitution) (n : Nat) : Term → Budgeted (Option Term)
  | .var x k => do
    match ← s.followWithin n [] x k with
    | .ok (.free y j) => some (some (.var y j))
    | .ok (.bound _ u j) => some (u.shifted j)
    | .error _ => some none
  | t => some (some t)

/-- Resolving is a walk and a shift. -/
theorem resolveWithin_eq_some (h : s.pending [] < n) (t : Term) :
    s.resolveWithin n t = some (s.resolve t) := by
  cases t with
  | var x k =>
    rw [resolveWithin, followWithin_eq_some h, resolve, follow]
    simp only [Option.bind_eq_bind, Option.bind_some]
    cases s.followFrom [] x k with
    | error => rfl
    | ok endpoint => cases endpoint <;> rfl
  | const | app => rfl

/-! ### Applications and their expansions -/

/-- The expansion of the value of a variable, with the expansions made inside it. -/
inductive Expansion where
  | of (name : String) (inner : List Expansion)

/-- Each name of the list is expanded inside the expansion of the one before, the first at the
top. -/
inductive IsChain : List Expansion → List String → Prop
  | nil {es : List Expansion} : IsChain es []
  | cons {es inner : List Expansion} {y : String} {ys : List String} (hy : .of y inner ∈ es)
    (hys : IsChain inner ys) : IsChain es (y :: ys)

/-- The items of a list treated in turn up to the first that fails, with all expansions made. -/
def eachWithin {α β ε : Type} (f : α → Budgeted (List Expansion × Except ε β)) :
    List α → Budgeted (List Expansion × Except ε (List β))
  | [] => some ([], .ok [])
  | a :: l => do
    match ← f a with
    | (es, .error e) => return (es, .error e)
    | (es, .ok b) =>
      let (es', bs) ← eachWithin f l
      return (es ++ es', (b :: ·) <$> bs)

/-- The application of the bindings to a term with at most `n` nested steps, as in `applyAvoiding`,
with the expansions that it makes. -/
def applyWithin (s : Substitution) :
    Nat → List String → Term → Budgeted (List Expansion × Except ShiftError Term)
  | 0, _, _ => none
  | _ + 1, _, .const a => some ([], .ok (.const a))
  | n + 1, expanding, .var x k => do
    match ← s.followWithin n [] x k with
    | .error e => return ([], .error e)
    | .ok (.free y j) => return ([], .ok (.var y j))
    | .ok (.bound y u j) =>
      if y ∈ expanding then return ([], .ok (.var x k))
      else
        let (inner, r) ← s.applyWithin n (y :: expanding) u
        return ([.of y inner], r >>= Term.shiftFor y j)
  | n + 1, expanding, .app g ts => do
    let (es, us) ← eachWithin (s.applyWithin n expanding) ts
    return (es, Term.app g <$> us)

/-! ### Chains of expansions -/

/-- The names down a record of expansions are new, and no name comes twice. -/
def NestsApart (expanding : List String) (es : List Expansion) : Prop :=
  ∀ chain, IsChain es chain → chain.Nodup ∧ chain.Disjoint expanding

theorem NestsApart.nil : NestsApart expanding [] := by
  rintro _ (_ | ⟨hy, -⟩)
  · exact ⟨.nil, List.disjoint_nil_left _⟩
  · cases hy

/-- Expansions of different arguments stand beside each other, and not inside. -/
theorem NestsApart.append {es es' : List Expansion} (h : NestsApart expanding es)
    (h' : NestsApart expanding es') : NestsApart expanding (es ++ es') := by
  rintro _ (_ | ⟨hy, hys⟩)
  · exact ⟨.nil, List.disjoint_nil_left _⟩
  · rcases List.mem_append.1 hy with hy | hy
    · exact h _ (.cons hy hys)
    · exact h' _ (.cons hy hys)

/-- What is expanded inside a name differs from it, so that the name can stand above. -/
theorem NestsApart.of_cons {inner : List Expansion} (h : NestsApart (x :: expanding) inner)
    (hx : x ∉ expanding) : NestsApart expanding [.of x inner] := by
  rintro _ (_ | ⟨hy, hys⟩)
  · exact ⟨.nil, List.disjoint_nil_left _⟩
  · cases List.mem_singleton.1 hy
    obtain ⟨hnodup, hdisj⟩ := h _ hys
    obtain ⟨hnot, hdisj⟩ := List.disjoint_cons_right.1 hdisj
    exact ⟨List.nodup_cons.2 ⟨hnot, hnodup⟩, List.disjoint_cons_left.2 ⟨hx, hdisj⟩⟩

/-! ### Every application ends -/

/-- The computation answers `r` on every budget from some point on, with one record of expansions,
which nests apart from `expanding`. -/
def Ends {ε α : Type} (expanding : List String)
    (run : Nat → Budgeted (List Expansion × Except ε α)) (r : Except ε α) : Prop :=
  ∃ n es, (∀ m ≥ n, run m = some (es, r)) ∧ NestsApart expanding es

/-- A list is treated to its end when each of its items is. -/
theorem Ends.each {α β ε : Type} {f : Nat → α → Budgeted (List Expansion × Except ε β)}
    {g : α → Except ε β} {l : List α} (h : ∀ a ∈ l, Ends expanding (f · a) (g a)) :
    Ends expanding (fun m ↦ eachWithin (f m) l) (l.mapM g) := by
  induction l with
  | nil => exact ⟨0, [], fun m _ ↦ rfl, .nil⟩
  | cons a l ih =>
    obtain ⟨n, es, hrun, hes⟩ := h a List.mem_cons_self
    obtain ⟨n', es', hrun', hes'⟩ := ih fun b hb ↦ h b (List.mem_cons_of_mem a hb)
    rw [List.mapM_cons]
    cases hg : g a with
    | error e =>
      refine ⟨n, es, fun m hm ↦ ?_, hes⟩
      simp only [eachWithin, hrun m hm, hg]
      rfl
    | ok b =>
      refine ⟨max n n', es ++ es', fun m hm ↦ ?_, hes.append hes'⟩
      simp only [eachWithin, hrun m (by omega), hrun' m (by omega), hg]
      rfl

/-- On a budget that is enough for the walk, only the expansion at its end is left. -/
theorem applyWithin_var (h : s.pending [] < n) : s.applyWithin (n + 1) expanding (.var x k) =
    match s.follow x k with
    | .error e => some ([], .error e)
    | .ok (.free y j) => some ([], .ok (.var y j))
    | .ok (.bound y u j) =>
      if y ∈ expanding then some ([], .ok (.var x k))
      else (s.applyWithin n (y :: expanding) u).map fun r ↦
        ([.of y r.1], r.2 >>= Term.shiftFor y j) := by
  rw [applyWithin, followWithin_eq_some h]
  simp only [follow, Option.bind_eq_bind, Option.bind_some]
  split
  · rfl
  · rfl
  · split
    · rfl
    · exact Option.map_eq_bind.symm

/-- The case of a variable: its value, if it is expanded, ends with the name added to the names
being expanded. -/
theorem Ends.var (h : ∀ y u j, s.follow x k = .ok (.bound y u j) → y ∉ expanding →
      Ends (y :: expanding) (s.applyWithin · (y :: expanding) u)
        (s.applyAvoiding (y :: expanding) u)) :
    Ends expanding (s.applyWithin · expanding (.var x k))
      (s.applyAvoiding expanding (.var x k)) := by
  -- one nested step more than the walk needs
  have hstep : ∀ m ≥ s.pending [] + 2, ∃ m', m = m' + 1 ∧ s.pending [] < m' :=
    fun m hm ↦ ⟨m - 1, by omega, by omega⟩
  have hplain : ∀ r, (∀ m, s.pending [] < m →
      s.applyWithin (m + 1) expanding (.var x k) = some ([], r)) →
        Ends expanding (s.applyWithin · expanding (.var x k)) r := by
    refine fun r hr ↦ ⟨s.pending [] + 2, [], fun m hm ↦ ?_, .nil⟩
    obtain ⟨m, rfl, hwalk⟩ := hstep m hm
    exact hr m hwalk
  rw [applyAvoiding_var]
  split
  · rename_i e he
    exact hplain _ fun m hm ↦ by rw [applyWithin_var hm, he]
  · rename_i y j hy
    exact hplain _ fun m hm ↦ by rw [applyWithin_var hm, hy]
  · rename_i y u j hy
    split
    · rename_i hmem
      exact hplain _ fun m hm ↦ by rw [applyWithin_var hm, hy]; exact if_pos hmem
    · rename_i hmem
      obtain ⟨n, inner, hrun, hinner⟩ := h y u j hy hmem
      refine ⟨max (n + 1) (s.pending [] + 2), [.of y inner], fun m hm ↦ ?_, hinner.of_cons hmem⟩
      obtain ⟨m, rfl, hwalk⟩ := hstep m (by omega)
      simp only [applyWithin_var hwalk, hy, if_neg hmem, hrun m (by omega), Option.map_some]

/-- Every application ends, with any names being expanded. The induction is on the bound names that
are not, and then on the term. -/
theorem ends_applyWithin (s : Substitution) (expanding : List String) (t : Term) :
    Ends expanding (s.applyWithin · expanding t) (s.applyAvoiding expanding t) := by
  -- first on the names that can still be expanded, then on the term
  induction hp : s.pending expanding using Nat.strong_induction_on generalizing expanding t with
  | _ p ihp =>
    induction t with
    | const a =>
      refine ⟨1, [], fun m hm ↦ ?_, .nil⟩
      obtain ⟨m, rfl⟩ := Nat.exists_eq_add_of_le' hm
      rw [applyAvoiding_const]
      rfl
    | var x k =>
      refine Ends.var fun y u j hy hmem ↦ ihp _ ?_ (y :: expanding) u rfl
      exact hp ▸ pending_cons_lt (mem_names_of_get? (get?_of_follow hy)) hmem
    | app g ts ih =>
      obtain ⟨n, es, hrun, hes⟩ := Ends.each ih
      refine ⟨n + 1, es, fun m hm ↦ ?_, hes⟩
      obtain ⟨m, rfl⟩ := Nat.exists_eq_add_of_le' (Nat.le_trans (Nat.le_add_left 1 n) hm)
      simp only [applyWithin, hrun m (Nat.le_of_succ_le_succ hm), applyAvoiding_app]
      rfl

/-- Whatever the bindings, resolving and applying end: on every large enough budget they answer, and
what they answer is `resolve` and `apply`. No name is expanded inside its own expansion. -/
theorem resolve_apply_terminate (s : Substitution) (t : Term) :
    (∃ n, ∀ m ≥ n, s.resolveWithin m t = some (s.resolve t)) ∧
      ∃ n es, (∀ m ≥ n, s.applyWithin m [] t = some (es, s.apply t)) ∧
        ∀ chain, IsChain es chain → chain.Nodup := by
  refine ⟨⟨s.pending [] + 1, fun m hm ↦ resolveWithin_eq_some hm t⟩, ?_⟩
  obtain ⟨n, es, hrun, hes⟩ := ends_applyWithin s [] t
  exact ⟨n, es, hrun, fun chain hchain ↦ (hes chain hchain).1⟩

/-- With `x` bound to `f(y)` and `y` to `g(x)`, the `x` inside `y` inside `x` stays. -/
example : (ofList [("x", .app "f" [.var "y" 0]), ("y", .app "g" [.var "x" 0])]).applyWithin 6 []
    (.var "x" 0) =
      some ([.of "x" [.of "y" []]], .ok (.app "f" [.app "g" [.var "x" 0]])) := by
  rfl

end OffsetLogic.Substitution
