import OffsetLogic.Substitution.Basic
import OffsetLogic.Term.Shift

/-!
# Following the bindings

Bindings are triangular and may be **cyclic in two ways**, and both have an answer.

* Variables bound to variables (`x ↦ y + 1`, `y ↦ x - 1`) form alias classes. `follow` walks from
  variable to variable, adding up the offsets, and when it comes back to a name that it has seen it
  answers the smallest name of the cycle, so that all members of a class have one representative.
* A variable bound to a term that contains it would expand without end. `apply` keeps the names it
  is expanding, and leaves an occurrence in place when it leads to one of them.

Both recursions therefore end on every substitution: each step takes a bound name that was not taken
before, so `pending`, the number of bound names not yet taken, decreases.

Unification makes cycles of the first kind whenever it equates two variables, since it binds both
directions. They are how a class of variables is represented, and no failure of anything. The offset
at which a walk comes back to a name is ignored; that it is the one with which the walk set out is a
fact about the substitutions that unification makes, and `OffsetLogic.Proofs.Unification.Classes`
proves it.

**Resolving is not applying.** `resolve` answers what a term stands for at its top, which is all
that unification needs to see, and leaves the arguments of an application alone; a sum of offsets
that leaves the range means that there is no such term, so it answers `none`. `apply` replaces all
variables, from left to right, and a sum that leaves the range is then an error.
-/

namespace OffsetLogic.Substitution

/-! ### The measure -/

/-- The number of bound names outside `seen`. -/
def pending (s : Substitution) (seen : List String) : Nat :=
  s.names.countP fun x ↦ x ∉ seen

/-- Taking one more of the names leaves fewer of them to take. -/
theorem countP_notMem_cons_lt {names seen : List String} {x : String} (hx : x ∈ names)
    (hs : x ∉ seen) :
    names.countP (fun y ↦ y ∉ x :: seen) < names.countP fun y ↦ y ∉ seen := by
  have le : ∀ l : List String,
      l.countP (fun y ↦ y ∉ x :: seen) ≤ l.countP fun y ↦ y ∉ seen := fun l ↦
    List.countP_mono_left fun y _ hy ↦ by simp_all
  induction names with
  | nil => exact absurd hx List.not_mem_nil
  | cons y ys ih =>
    by_cases hyx : y = x
    · subst hyx
      simpa [List.countP_cons, hs] using Nat.lt_succ_of_le (le ys)
    · have := ih ((List.mem_cons.1 hx).resolve_left (Ne.symm hyx))
      by_cases hy : y ∈ seen <;> simp_all

/-- A bound name that is taken for the first time decreases the measure of both recursions. -/
theorem pending_cons_lt {s : Substitution} {seen : List String} {x : String} (hx : x ∈ s.names)
    (hs : x ∉ seen) : s.pending (x :: seen) < s.pending seen :=
  countP_notMem_cons_lt hx hs

/-! ### From variable to variable -/

/-- Where the walk from a variable through the bindings ends. -/
inductive Endpoint where
  /-- At an unbound variable, or at the representative of a cycle of variables. -/
  | free (name : String) (offset : Int64)
  /-- At the variable `name`, bound to `term`, which is not a variable and still has to be shifted
  by `offset`. -/
  | bound (name : String) (term : Term) (offset : Int64)
deriving DecidableEq

/-- The entry with the smallest name among those of a path (latest first) back to and including the
entry of `x`; `none` if `x` is not on the path. -/
def leastSince (x : String) : List (String × Int64) → Option (String × Int64)
  | [] => none
  | e :: path =>
    if e.1 = x then some e
    else (leastSince x path).map fun least ↦ if e.1 < least.1 then e else least

/-- A name is looked for on the whole path, and not found only if it was not visited. -/
theorem leastSince_eq_none_iff {x : String} {path : List (String × Int64)} :
    leastSince x path = none ↔ x ∉ path.map Prod.fst := by
  induction path with
  | nil => simp [leastSince]
  | cons e path ih =>
    by_cases hx : e.1 = x
    · simp [leastSince, hx]
    · simp [leastSince, hx, ih, Ne.symm hx]

/-- The walk from `x + k`, given the variables visited before with their offsets, latest first. -/
def followFrom (s : Substitution) (path : List (String × Int64)) (x : String) (k : Int64) :
    Except ShiftError Endpoint :=
  match _hp : leastSince x path with
  | some (y, j) => .ok (.free y j)
  | none =>
    match _hx : s.get? x with
    | none => .ok (.free x k)
    | some (.var y step) =>
      match k.add? step with
      | some j => s.followFrom ((x, k) :: path) y j
      | none => .error ⟨x, k, .var y step⟩
    | some u => .ok (.bound x u k)
termination_by s.pending (path.map Prod.fst)
decreasing_by exact pending_cons_lt (mem_names_of_get? _hx) (leastSince_eq_none_iff.1 _hp)

/-- The walk from `x + k` through the bindings, adding up offsets; fails where a sum overflows. -/
def follow (s : Substitution) (x : String) (k : Int64) : Except ShiftError Endpoint :=
  s.followFrom [] x k

/-- Where a walk ends at a bound variable, the term it reports is the one the variable is bound to.
-/
theorem get?_of_followFrom {s : Substitution} {path : List (String × Int64)} {x y : String}
    {k j : Int64} {u : Term} (h : s.followFrom path x k = .ok (.bound y u j)) :
    s.get? y = some u := by
  fun_induction followFrom s path x k with
  | case1 => simp at h
  | case2 => simp at h
  | case3 path x k _ y step _ j _ ih => exact ih h
  | case4 => simp at h
  | case5 path x k _ u _ hx => simp_all

theorem get?_of_follow {s : Substitution} {x y : String} {k j : Int64} {u : Term}
    (h : s.follow x k = .ok (.bound y u j)) : s.get? y = some u :=
  get?_of_followFrom h

/-! ### Resolving and applying -/

/-- What a term stands for at its top: a variable is followed to its end, and a bound term moved by
the offset collected on the way. `none` if an offset overflows or cannot be absorbed. -/
def resolve (s : Substitution) : Term → Option Term
  | .var x k =>
    match s.follow x k with
    | .ok (.free y j) => some (.var y j)
    | .ok (.bound _ u j) => u.shifted j
    | .error _ => none
  | t => some t

/-- The term with its variables replaced by what they stand for, except that an occurrence that
leads to a name of `expanding` stays as it is. -/
def applyAvoiding (s : Substitution) (expanding : List String) (t : Term) :
    Except ShiftError Term :=
  t.bindM fun x k ↦
    match _h : s.follow x k with
    | .error e => .error e
    | .ok (.free y j) => .ok (.var y j)
    | .ok (.bound y u j) =>
      if _hy : y ∈ expanding then .ok (.var x k)
      else do Term.shiftFor y j (← s.applyAvoiding (y :: expanding) u)
termination_by s.pending expanding
decreasing_by exact pending_cons_lt (mem_names_of_get? (get?_of_follow _h)) _hy

/-- The term with its variables replaced, from left to right, by what they stand for. -/
def apply (s : Substitution) (t : Term) : Except ShiftError Term := s.applyAvoiding [] t

end OffsetLogic.Substitution
