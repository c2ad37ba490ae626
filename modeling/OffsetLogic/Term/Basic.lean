import OffsetLogic.SortedSet

/-!
# Terms with offset variables

A term is a constant, a variable that carries an integer offset (`x + 1`), or an application of a
function name to arguments. Atoms are applications too, so a literal is a signed term.

**One traversal.** Everything that rebuilds a term does so from left to right, and asks what stands
at each occurrence of a variable: `Term.bindM` is that traversal, in any monad. Renaming without
effects has its own definition, `Term.rename`.

The order of the traversal matters, because it can fail: when a substitution cannot be carried out
at several occurrences, the error that is reported is that of the leftmost one. In the monad of
errors `bindM` gives just that, and in the identity monad it is substitution of terms for names.

The arguments of an application are a list of terms, so each recursion comes as a pair, one function
on terms and one on argument lists; the second is always the list operation that its lemma names
(`bindArgsM_eq_mapM`, `renameArgs_eq_map`, `occurrencesArgs_eq_flatMap`). Proofs go by
`Term.induction`, whose hypothesis covers every argument. It is the eliminator that `induction`
picks for terms, so no proof meets the recursor of the nested type.

Variables are counted in two ways. `occurrences` lists a name once for each occurrence, from left to
right, and is what proofs use; `variableNames` is the set of these names, ascending, and is what a
clause is asked for when it is renamed apart or printed.
-/

namespace OffsetLogic

/-- What a constant stands for. Only integers take part in offset arithmetic. -/
inductive Value where
  /-- An integer. -/
  | int (n : Int64)
  /-- A named atom. -/
  | symbol (s : String)
deriving DecidableEq, Inhabited

namespace Value

/-- The integer of an integer value. -/
def asInt? : Value → Option Int64
  | int n => some n
  | symbol _ => none

/-- Whether the value can absorb an offset. -/
def isNumeric (v : Value) : Bool := v.asInt?.isSome

end Value

/-- A term of the logic. -/
inductive Term where
  /-- A constant. -/
  | const (v : Value)
  /-- The variable `name`, shifted by `offset`; the plain variable has offset zero. -/
  | var (name : String) (offset : Int64)
  /-- The function `name` applied to arguments, or an atom. -/
  | app (name : String) (args : List Term)
deriving Inhabited

namespace Term

/-- Induction on terms, with a hypothesis for every argument of an application. -/
@[induction_eliminator]
theorem induction {motive : Term → Prop} (const : ∀ v, motive (.const v))
    (var : ∀ x k, motive (.var x k))
    (app : ∀ g ts, (∀ t ∈ ts, motive t) → motive (.app g ts)) (t : Term) : motive t :=
  Term.rec (motive_1 := motive) (motive_2 := fun ts ↦ ∀ t ∈ ts, motive t)
    const var app (fun _ h ↦ absurd h List.not_mem_nil)
    (fun _ _ ht hts _ h ↦ (List.mem_cons.1 h).elim (· ▸ ht) (hts _)) t

def isVariable : Term → Bool
  | .var .. => true
  | _ => false

/-- A term is no variable when it differs from every variable, as a default case of a match says. -/
theorem isVariable_eq_false {t : Term} (h : ∀ x k, t ≠ .var x k) : t.isVariable = false := by
  cases t with
  | var x k => exact absurd rfl (h x k)
  | const | app => rfl

/-- The name of a variable. -/
def varName? : Term → Option String
  | .var x _ => some x
  | _ => none

/-! ### Variables -/

mutual

/-- The variable names of a term, one for each occurrence, from left to right. -/
def occurrences : Term → List String
  | .const _ => []
  | .var x _ => [x]
  | .app _ ts => occurrencesArgs ts

/-- The variable names of an argument list, one for each occurrence, from left to right. -/
def occurrencesArgs : List Term → List String
  | [] => []
  | t :: ts => t.occurrences ++ occurrencesArgs ts

end

theorem occurrencesArgs_eq_flatMap (ts : List Term) :
    occurrencesArgs ts = ts.flatMap occurrences := by
  induction ts with
  | nil => rfl
  | cons t ts ih => rw [occurrencesArgs, ih, List.flatMap_cons]

/-- A name occurs in an application when it occurs in one of the arguments. -/
theorem mem_occurrences_app {g : String} {ts : List Term} {x : String} :
    x ∈ (app g ts).occurrences ↔ ∃ t ∈ ts, x ∈ t.occurrences := by
  rw [occurrences, occurrencesArgs_eq_flatMap, List.mem_flatMap]

/-- The set of variable names of a term. -/
def variableNames (t : Term) : SortedSet String := .ofList t.occurrences

/-- Whether a term has no variables. -/
def isGround (t : Term) : Bool := t.occurrences.isEmpty

/-- The set of names has the names that occur. -/
@[simp] theorem mem_variableNames {t : Term} {x : String} :
    x ∈ t.variableNames ↔ x ∈ t.occurrences :=
  SortedSet.mem_ofList

/-! ### Renaming -/

mutual

/-- The term with `f` applied to every variable name; offsets stay. -/
def rename (f : String → String) : Term → Term
  | .const v => .const v
  | .var x k => .var (f x) k
  | .app g ts => .app g (renameArgs f ts)

/-- The argument list with `f` applied to every variable name. -/
def renameArgs (f : String → String) : List Term → List Term
  | [] => []
  | t :: ts => t.rename f :: renameArgs f ts

end

theorem renameArgs_eq_map (f : String → String) (ts : List Term) :
    renameArgs f ts = ts.map (rename f) := by
  induction ts with
  | nil => rfl
  | cons t ts ih => rw [renameArgs, ih, List.map_cons]

/-- A name marked with a suffix: `x` becomes `x_suffix`. -/
def suffixed (suffix x : String) : String := x ++ "_" ++ suffix

/-- The term with every variable marked with a suffix. -/
def renameSuffix (suffix : String) (t : Term) : Term := t.rename (suffixed suffix)

/-- Renaming renames every occurrence and moves none. -/
@[simp] theorem occurrences_rename (f : String → String) (t : Term) :
    (t.rename f).occurrences = t.occurrences.map f := by
  induction t with
  | const v => rfl
  | var x k => rfl
  | app g ts ih =>
    simp only [rename, occurrences, renameArgs_eq_map, occurrencesArgs_eq_flatMap]
    induction ts with
    | nil => rfl
    | cons t ts iht =>
      simp only [List.map_cons, List.flatMap_cons, List.map_append]
      rw [ih t List.mem_cons_self, iht fun u hu ↦ ih u (List.mem_cons_of_mem _ hu)]

/-! ### Traversal -/

section

variable {m : Type → Type} [Monad m]

mutual

/-- The term with `f x k` in the place of each variable `x + k`, computed from left to right. -/
def bindM (f : String → Int64 → m Term) : Term → m Term
  | .const v => pure (.const v)
  | .var x k => f x k
  | .app g ts => return .app g (← bindArgsM f ts)

/-- The argument list with `f x k` in the place of each variable `x + k`, from left to right. -/
def bindArgsM (f : String → Int64 → m Term) : List Term → m (List Term)
  | [] => pure []
  | t :: ts => return (← t.bindM f) :: (← bindArgsM f ts)

end

/-- The traversal of an argument list is that of its members from left to right. -/
theorem bindArgsM_eq_mapM [LawfulMonad m] (f : String → Int64 → m Term) (ts : List Term) :
    bindArgsM f ts = ts.mapM (bindM f) := by
  induction ts with
  | nil => rfl
  | cons t ts ih => rw [bindArgsM, ih, List.mapM_cons]

/-- The term with `f` applied to every variable name, from left to right; offsets stay. -/
def renameM (f : String → m String) (t : Term) : m Term :=
  t.bindM fun x k ↦ return .var (← f x) k

end

end Term

end OffsetLogic
