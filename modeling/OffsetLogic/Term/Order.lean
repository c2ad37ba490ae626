import OffsetLogic.Term.Basic

/-!
# The order of values and terms

Constants come before variables and variables before applications; integers come before symbols.
Within a kind, integers compare by value, names by code points, variables by name and then offset,
applications by name and then their arguments lexicographically, a proper prefix being smaller.

The order is **total and its equality is structural** (`Term.compare_eq_iff`, and the instances of
`TransOrd` and `LawfulEqOrd`), so terms can be members of a `SortedSet`, and equality of terms is
decided by comparing them.

Three facts make up the instances, each by one induction on the first term with a case for the kind
of the others: exchanging the arguments swaps the result (`compare_eq_swap`), terms that compare
equal are equal (`compare_eq_iff`), and being at most is transitive (`compare_isLE_trans`). For
two applications there is an inner induction on the argument lists: what the library knows about
comparing lists asks for an order on their members, and that is what is being proved. The step of
that induction is the same in every lexicographic order, and for transitivity it is stated on its
own (`then_isLE_trans`).
-/

open Std

namespace OffsetLogic

/-! ### Values -/

namespace Value

/-- Integers before symbols. -/
protected def compare : Value → Value → Ordering
  | .int m, .int n => Ord.compare m n
  | .int _, .symbol _ => .lt
  | .symbol _, .int _ => .gt
  | .symbol s, .symbol t => Ord.compare s t

instance : Ord Value := ⟨Value.compare⟩

@[simp] theorem compare_int_int (m n : Int64) : compare (int m) (int n) = compare m n := rfl
@[simp] theorem compare_int_symbol (m : Int64) (t : String) :
    compare (int m) (symbol t) = .lt := rfl
@[simp] theorem compare_symbol_int (s : String) (n : Int64) :
    compare (symbol s) (int n) = .gt := rfl
@[simp] theorem compare_symbol_symbol (s t : String) :
    compare (symbol s) (symbol t) = compare s t := rfl

instance : LawfulEqOrd Value where
  compare_self {v} := by cases v <;> simp
  eq_of_compare {u v} h := by cases u <;> cases v <;> simp_all

instance : TransOrd Value where
  eq_swap {u v} := by
    cases u <;> cases v <;> simp <;> exact OrientedOrd.eq_swap
  isLE_trans {u v w} := by
    cases u <;> cases v <;> cases w <;> simp <;> exact TransOrd.isLE_trans

end Value

/-! ### Terms -/

namespace Term

mutual

/-- Constants before variables before applications. -/
protected def compare : Term → Term → Ordering
  | .const u, .const v => Ord.compare u v
  | .const _, .var .. => .lt
  | .const _, .app .. => .lt
  | .var .., .const _ => .gt
  | .var x j, .var y k => (Ord.compare x y).then (Ord.compare j k)
  | .var .., .app .. => .lt
  | .app .., .const _ => .gt
  | .app .., .var .. => .gt
  | .app g ts, .app h us => (Ord.compare g h).then (compareArgs ts us)

/-- Argument lists lexicographically, a proper prefix being smaller. -/
def compareArgs : List Term → List Term → Ordering
  | [], [] => .eq
  | [], _ :: _ => .lt
  | _ :: _, [] => .gt
  | t :: ts, u :: us => (t.compare u).then (compareArgs ts us)

end

instance : Ord Term := ⟨Term.compare⟩

@[simp] theorem compare_const_const (u v : Value) :
    compare (const u) (const v) = compare u v := rfl
@[simp] theorem compare_const_var (u : Value) (y : String) (l : Int64) :
    compare (const u) (var y l) = .lt := rfl
@[simp] theorem compare_const_app (u : Value) (h : String) (us : List Term) :
    compare (const u) (app h us) = .lt := rfl
@[simp] theorem compare_var_const (x : String) (k : Int64) (v : Value) :
    compare (var x k) (const v) = .gt := rfl
@[simp] theorem compare_var_var (x y : String) (k l : Int64) :
    compare (var x k) (var y l) = (compare x y).then (compare k l) := rfl
@[simp] theorem compare_var_app (x : String) (k : Int64) (h : String) (us : List Term) :
    compare (var x k) (app h us) = .lt := rfl
@[simp] theorem compare_app_const (g : String) (ts : List Term) (v : Value) :
    compare (app g ts) (const v) = .gt := rfl
@[simp] theorem compare_app_var (g : String) (ts : List Term) (y : String) (l : Int64) :
    compare (app g ts) (var y l) = .gt := rfl

/-- The recursion on argument lists is the lexicographic order of lists. -/
theorem compareArgs_eq_compare (ts us : List Term) : compareArgs ts us = compare ts us := by
  induction ts generalizing us with
  | nil => cases us <;> rfl
  | cons t ts ih =>
    cases us with
    | nil => rfl
    | cons u us =>
      rw [compareArgs, ih, List.compare_cons_cons]
      rfl

/-- Applications compare by name, and by arguments where the names agree. -/
@[simp] theorem compare_app_app (g h : String) (ts us : List Term) :
    compare (app g ts) (app h us) = (compare g h).then (compare ts us) := by
  rw [← compareArgs_eq_compare]
  rfl

/-- Exchanging two terms swaps the result of comparing them. -/
theorem compare_eq_swap (t u : Term) : compare t u = (compare u t).swap := by
  induction t generalizing u with
  | const v =>
    cases u with
    | const w => exact OrientedOrd.eq_swap (a := v)
    | _ => rfl
  | var x k =>
    cases u with
    | var y l =>
      rw [compare_var_var, compare_var_var, Ordering.swap_then, ← OrientedOrd.eq_swap,
        ← OrientedOrd.eq_swap]
    | _ => rfl
  | app g ts ih =>
    cases u with
    | app h us =>
      rw [compare_app_app, compare_app_app, Ordering.swap_then, ← OrientedOrd.eq_swap]
      congr 1
      induction ts generalizing us with
      | nil => cases us <;> rfl
      | cons t ts iht =>
        cases us with
        | nil => rfl
        | cons u us =>
          rw [List.compare_cons_cons, List.compare_cons_cons, Ordering.swap_then,
            ← ih t List.mem_cons_self, iht fun u hu ↦ ih u (List.mem_cons_of_mem _ hu)]
    | _ => rfl

/-- Equal in the order means equal. -/
theorem compare_eq_iff {t u : Term} : compare t u = .eq ↔ t = u := by
  induction t generalizing u with
  | const v => cases u <;> simp
  | var x k => cases u <;> simp [Ordering.then_eq_eq]
  | app g ts ih =>
    cases u with
    | app h us =>
      rw [compare_app_app, Ordering.then_eq_eq, Std.compare_eq_iff_eq, app.injEq]
      refine and_congr_right fun _ ↦ ?_
      induction ts generalizing us with
      | nil => cases us <;> simp
      | cons t ts iht =>
        cases us with
        | nil => simp
        | cons u us =>
          rw [List.compare_cons_cons, Ordering.then_eq_eq, ih t List.mem_cons_self,
            iht fun u hu ↦ ih u (List.mem_cons_of_mem _ hu), List.cons.injEq]
    | _ => simp

/-- The lexicographic step of transitivity: a comparison refined by a second one. -/
theorem then_isLE_trans {α : Type} {cmp : α → α → Ordering}
    (swap : ∀ a b, cmp a b = (cmp b a).swap) (eq : ∀ {a b}, cmp a b = .eq → a = b) {a b c : α}
    (trans : (cmp a b).isLE → (cmp b c).isLE → (cmp a c).isLE) {r₁ r₂ r₃ : Ordering}
    (hr : r₁.isLE → r₂.isLE → r₃.isLE) (h₁ : ((cmp a b).then r₁).isLE)
    (h₂ : ((cmp b c).then r₂).isLE) : ((cmp a c).then r₃).isLE := by
  cases hab : cmp a b with
  | gt => simp [hab] at h₁
  | eq =>
    obtain rfl := eq hab
    cases hbc : cmp a c with
    | lt => rfl
    | eq =>
      rw [hab] at h₁
      rw [hbc] at h₂
      exact hr h₁ h₂
    | gt => simp [hbc] at h₂
  | lt =>
    cases hbc : cmp b c with
    | gt => simp [hbc] at h₂
    | eq =>
      obtain rfl := eq hbc
      simp [hab]
    | lt =>
      cases hac : cmp a c with
      | lt => rfl
      | gt => simp [hab, hbc, hac] at trans
      | eq =>
        obtain rfl := eq hac
        rw [swap, hab] at hbc
        cases hbc

/-- Being at most is transitive. The induction is on the first term, and for two applications it
goes through the arguments with `then_isLE_trans`. -/
theorem compare_isLE_trans {t u v : Term} (h₁ : (compare t u).isLE) (h₂ : (compare u v).isLE) :
    (compare t v).isLE := by
  induction t generalizing u v with
  | const a =>
    cases u <;> cases v <;> simp_all
    exact TransOrd.isLE_trans h₁ h₂
  | var x k =>
    cases u with
    | const => simp at h₁
    | app => cases v <;> simp_all
    | var y l =>
      cases v with
      | const => simp at h₂
      | app => rfl
      | var z m =>
        exact then_isLE_trans (fun _ _ ↦ OrientedOrd.eq_swap) LawfulEqOrd.eq_of_compare
          TransOrd.isLE_trans TransOrd.isLE_trans h₁ h₂
  | app g ts ih =>
    cases u with
    | const => simp at h₁
    | var => simp at h₁
    | app h us =>
      cases v with
      | const => simp at h₂
      | var => simp at h₂
      | app i vs =>
        rw [compare_app_app] at h₁ h₂ ⊢
        refine then_isLE_trans (fun _ _ ↦ OrientedOrd.eq_swap) LawfulEqOrd.eq_of_compare
          TransOrd.isLE_trans (fun k₁ k₂ ↦ ?_) h₁ h₂
        clear h₁ h₂
        induction ts generalizing us vs with
        | nil => cases vs <;> rfl
        | cons t ts iht =>
          cases us with
          | nil => simp at k₁
          | cons u us =>
            cases vs with
            | nil => simp at k₂
            | cons v vs =>
              rw [List.compare_cons_cons] at k₁ k₂ ⊢
              exact then_isLE_trans compare_eq_swap compare_eq_iff.1 (ih t List.mem_cons_self)
                (iht (fun u hu ↦ ih u (List.mem_cons_of_mem _ hu)) us vs) k₁ k₂

instance : LawfulEqOrd Term where
  compare_self := compare_eq_iff.2 rfl
  eq_of_compare := compare_eq_iff.1

instance : TransOrd Term where
  eq_swap := compare_eq_swap _ _
  isLE_trans := compare_isLE_trans

instance : DecidableEq Term := fun _ _ ↦ decidable_of_iff _ compare_eq_iff

end Term

end OffsetLogic
