import Mathlib.Control.Monad.Basic
import OffsetLogic.Proofs.Term.Places

/-!
# Applying and replacing

A substitution is **direct** when no bound name occurs in a bound term. Then nothing is left to
follow: a bound variable stands for its term, moved by the offset, and a name can be replaced
without touching what was put in the place of another one. So to apply the substitution is to
replace its names one after another, whatever the order
(`Substitution.Direct.apply_eq_ok_iff_replaceEach`).

**At once.** Both ways come down to `Term.replaceAll`, which replaces all names in one traversal. An
application does the same at every variable, so it even has the same errors
(`Substitution.Direct.apply_eq_replaceAll`). Replacements one after another traverse the term once
for each name, and the error that they meet first belongs to the first name that fails, not to the
leftmost occurrence; what they share with one traversal is the result (`replaceEach_eq_ok_iff`).

## Two traversals as one

The step from one replacement to many is a law about traversals: to go through a term with `f`, and
through the result with `g`, is to go through it once with both, as far as results are concerned
(`Term.bindM_bindM_eq_ok_iff`). It is not a law about errors. The first traversal may fail late and
the second would have failed early, so which error is reported depends on the order; that is why the
statement is an equivalence of successes, and of failures, but not an equation.

With a single binding there is only one traversal on both sides, and the errors are equal, too.

Unifiers are not direct in general, since they bind variables to variables in both directions. The
notion is for substitutions that are written down by hand or that a matching has made.
-/

namespace OffsetLogic

/-! ### Traversals of traversals -/

section

variable {α β γ ε : Type}

/-- Items that are taken through two stages are taken through them one list after the other. -/
theorem mapM_mapM_eq_ok_iff {f : α → Except ε β} {g : β → Except ε γ} {h : α → Except ε γ}
    {l : List α} {cs : List γ}
    (hfg : ∀ a ∈ l, ∀ c, (∃ b, f a = .ok b ∧ g b = .ok c) ↔ h a = .ok c) :
    (∃ bs, l.mapM f = .ok bs ∧ bs.mapM g = .ok cs) ↔ l.mapM h = .ok cs := by
  induction l generalizing cs with
  | nil => exact ⟨fun ⟨_, hbs, hcs⟩ ↦ by cases hbs; exact hcs, fun hcs ↦ ⟨[], rfl, hcs⟩⟩
  | cons a l ih =>
    have hl (cs : List γ) : (∃ bs, l.mapM f = .ok bs ∧ bs.mapM g = .ok cs) ↔ l.mapM h = .ok cs :=
      ih fun b hb ↦ hfg b (List.mem_cons_of_mem a hb)
    have ha := hfg a List.mem_cons_self
    constructor
    · rintro ⟨_, hf, hg⟩
      obtain ⟨b, bs, hb, hbs, rfl⟩ := mapM_cons_eq_ok.1 hf
      obtain ⟨c, cs, hc, hcs, rfl⟩ := mapM_cons_eq_ok.1 hg
      exact mapM_cons_eq_ok.2 ⟨c, cs, (ha c).1 ⟨b, hb, hc⟩, (hl cs).1 ⟨bs, hbs, hcs⟩, rfl⟩
    · intro hh
      obtain ⟨c, cs, hc, hcs, rfl⟩ := mapM_cons_eq_ok.1 hh
      obtain ⟨b, hb, hc⟩ := (ha c).2 hc
      obtain ⟨bs, hbs, hcs⟩ := (hl cs).2 hcs
      exact ⟨b :: bs, mapM_cons_eq_ok.2 ⟨b, bs, hb, hbs, rfl⟩,
        mapM_cons_eq_ok.2 ⟨c, cs, hc, hcs, rfl⟩⟩

/-- Computations with the same results fail together. -/
theorem exists_eq_error_iff {m m' : Except ε α} (h : ∀ a, m = .ok a ↔ m' = .ok a) :
    (∃ e, m = .error e) ↔ ∃ e, m' = .error e := by
  cases m with
  | ok a => rw [(h a).1 rfl]
  | error e =>
    cases m' with
    | ok a => exact absurd ((h a).2 rfl) (fun h ↦ nomatch h)
    | error e' => exact ⟨fun _ ↦ ⟨e', rfl⟩, fun _ ↦ ⟨e, rfl⟩⟩

end

namespace Term

variable {x : String} {k : Int64} {r t u : Term} {bs : List (String × Term)}

/-- Two traversals are one, when they are one at every variable. -/
theorem bindM_bindM_eq_ok_iff {ε : Type} {f g h : String → Int64 → Except ε Term}
    (hfg : ∀ x k u, (∃ v, f x k = .ok v ∧ v.bindM g = .ok u) ↔ h x k = .ok u) :
    (∃ v, t.bindM f = .ok v ∧ v.bindM g = .ok u) ↔ t.bindM h = .ok u := by
  induction t generalizing u with
  | const a => exact ⟨fun ⟨_, hv, hu⟩ ↦ by cases hv; exact hu, fun hu ↦ ⟨_, rfl, hu⟩⟩
  | var x k => exact hfg x k u
  | app p ts ih =>
    have hargs (us : List Term) : (∃ vs, ts.mapM (bindM f) = .ok vs ∧ vs.mapM (bindM g) = .ok us) ↔
        ts.mapM (bindM h) = .ok us :=
      mapM_mapM_eq_ok_iff fun t ht _ ↦ ih t ht
    constructor
    · rintro ⟨v, hv, hu⟩
      obtain ⟨vs, hvs, rfl⟩ := bindM_app_eq_ok.1 hv
      obtain ⟨us, hus, rfl⟩ := bindM_app_eq_ok.1 hu
      exact bindM_app_eq_ok.2 ⟨us, (hargs us).1 ⟨vs, hvs, hus⟩, rfl⟩
    · intro hu
      obtain ⟨us, hus, rfl⟩ := bindM_app_eq_ok.1 hu
      obtain ⟨vs, hvs, hus⟩ := (hargs us).2 hus
      exact ⟨.app p vs, bindM_app_eq_ok.2 ⟨vs, hvs, rfl⟩, bindM_app_eq_ok.2 ⟨us, hus, rfl⟩⟩

/-! ### Replacing several names -/

/-- The term with the names of a list of bindings replaced one after another. -/
def replaceEach (t : Term) (bs : List (String × Term)) : Except ShiftError Term :=
  bs.foldlM (fun t b ↦ t.replace b.1 b.2) t

/-- What stands for `x + k`: the term that `x` is bound to, moved by `k`, or the variable. -/
def imageIn (bs : List (String × Term)) (x : String) (k : Int64) : Except ShiftError Term :=
  match bs.lookup x with
  | some r => shiftFor x k r
  | none => .ok (.var x k)

/-- The term with the names of a list of bindings replaced in one traversal. -/
def replaceAll (t : Term) (bs : List (String × Term)) : Except ShiftError Term :=
  t.bindM (imageIn bs)

/-- Each name has one term, so the order of the bindings does not matter. -/
theorem imageIn_of_perm {bs' : List (String × Term)} (hnodup : (bs.map Prod.fst).Nodup)
    (h : bs'.Perm bs) : imageIn bs' = imageIn bs := by
  let s : Substitution := ⟨bs, hnodup⟩
  let s' : Substitution := ⟨bs', (h.map Prod.fst).nodup_iff.2 hnodup⟩
  have hlookup : ∀ x, bs'.lookup x = bs.lookup x := fun x ↦ Option.ext fun r ↦
    (s'.get?_eq_some_iff_mem.trans h.mem_iff).trans s.get?_eq_some_iff_mem.symm
  funext x k
  rw [imageIn, imageIn, hlookup]

theorem imageIn_singleton (x : String) (r : Term) :
    imageIn [(x, r)] = fun y k ↦ if y = x then shiftFor y k r else .ok (.var y k) := by
  funext y k
  by_cases hy : y = x <;> simp [imageIn, Substitution.lookup_cons, hy]

theorem replaceAll_singleton (x : String) (r t : Term) : t.replaceAll [(x, r)] = t.replace x r := by
  rw [replaceAll, imageIn_singleton, replace]

/-- A term without the replaced names stays as it is. -/
theorem replaceAll_eq_self (h : ∀ x ∈ t.occurrences, x ∉ bs.map Prod.fst) :
    t.replaceAll bs = .ok t := by
  refine bindM_eq_self fun e he ↦ ?_
  have hnone : bs.lookup e.1 = none := List.lookup_eq_none_iff.2 fun b hb ↦ bne_iff_ne.2 fun heq ↦
    h e.1 (mem_occurrences_iff.2 ⟨e.2, he⟩) (heq ▸ List.mem_map_of_mem hb)
  rw [imageIn, hnone]

/-- To replace names one after another is to replace them in one traversal, when no name is listed
twice and no listed term mentions a listed name. -/
theorem replaceEach_eq_ok_iff (hnodup : (bs.map Prod.fst).Nodup)
    (hbs : ∀ b ∈ bs, ∀ x ∈ b.2.occurrences, x ∉ bs.map Prod.fst) :
    t.replaceEach bs = .ok u ↔ t.replaceAll bs = .ok u := by
  induction bs generalizing t with
  | nil =>
    rw [replaceAll_eq_self fun _ _ ↦ List.not_mem_nil]
    rfl
  | cons b bs ih =>
    rw [List.map_cons, List.nodup_cons] at hnodup
    have hrest (v : Term) : v.replaceEach bs = .ok u ↔ v.replaceAll bs = .ok u :=
      ih hnodup.2 fun c hc x hx hmem ↦
        hbs c (List.mem_cons_of_mem b hc) x hx (List.mem_cons_of_mem _ hmem)
    rw [replaceEach, List.foldlM_cons, Except.bind_eq_ok_iff, ← replaceAll_singleton]
    show (∃ v, t.replaceAll [b] = .ok v ∧ v.replaceEach bs = .ok u) ↔ _
    simp only [hrest]
    refine bindM_bindM_eq_ok_iff fun x k u ↦ ?_
    rw [imageIn_singleton, imageIn, Substitution.lookup_cons]
    by_cases hx : x = b.1
    · -- what was put in the place of the first name has no name that is still to be replaced
      have hself : ∀ v, shiftFor x k b.2 = .ok v → v.replaceAll bs = .ok v := by
        intro v hv
        refine replaceAll_eq_self fun y hy hmem ↦ ?_
        rw [occurrences_shifted (shiftFor_eq_ok.1 hv)] at hy
        exact hbs b List.mem_cons_self y hy (List.mem_cons_of_mem _ hmem)
      simp only [if_pos hx]
      constructor
      · rintro ⟨v, hv, hu⟩
        exact ((hself v hv).symm.trans hu) ▸ hv
      · exact fun hu ↦ ⟨u, hu, hself u hu⟩
    · simp only [if_neg hx]
      exact ⟨fun ⟨_, hv, hu⟩ ↦ by cases hv; exact hu, fun hu ↦ ⟨_, rfl, hu⟩⟩

end Term

/-! ### Direct substitutions -/

namespace Substitution

variable {s : Substitution} {x : String} {k : Int64} {r t u : Term}

/-- No bound name occurs in a bound term. -/
def Direct (s : Substitution) : Prop := ∀ b ∈ s.bindings, ∀ x ∈ b.2.occurrences, x ∉ s.names

instance : Decidable s.Direct :=
  inferInstanceAs (Decidable (∀ b ∈ s.bindings, ∀ x ∈ b.2.occurrences, x ∉ s.names))

namespace Direct

variable (hs : s.Direct)

include hs

theorem get?_eq_none (hx : s.get? x = some r) {y : String} (hy : y ∈ r.occurrences) :
    s.get? y = none :=
  get?_eq_none_iff.2 (hs _ (get?_eq_some_iff_mem.1 hx) y hy)

/-- A bound term is its own image, since nothing in it is bound. -/
theorem applyAvoiding_eq_self {expanding : List String} (hx : s.get? x = some r) :
    s.applyAvoiding expanding r = .ok r :=
  Substitution.applyAvoiding_eq_self fun e he ↦
    follow_of_get?_eq_none (hs.get?_eq_none hx (Term.mem_occurrences_iff.2 ⟨e.2, he⟩))

/-- A variable that is bound to a variable ends there, unless the offset has no place in it. -/
theorem apply_var_of_var {y : String} {step : Int64} (hx : s.get? x = some (.var y step)) :
    s.apply (.var x k) = Term.shiftFor x k (.var y step) := by
  have hy : s.get? y = none := hs.get?_eq_none hx (List.mem_singleton_self y)
  have hne : x ≠ y := by
    rintro rfl
    cases hx.symm.trans hy
  rw [Term.shiftFor, Term.shifted_var, Int64.add?_comm, apply, applyAvoiding_var]
  cases hj : k.add? step with
  | none =>
    have hfollow : s.follow x k = .error ⟨x, k, .var y step⟩ := by
      rw [follow, followFrom_eq, hx]
      simp only [leastSince, hj]
    rw [hfollow]
    rfl
  | some j =>
    have hfollow : s.follow x k = .ok (.free y j) := by
      rw [follow, followFrom_eq, hx]
      simp only [leastSince, hj]
      rw [followFrom_eq, leastSince, if_neg hne, hy]
      rfl
    rw [hfollow]
    rfl

/-- A variable that is bound to another term stands for it, moved by the offset. -/
theorem apply_var_of_isVariable (hx : s.get? x = some r) (hr : r.isVariable = false) :
    s.apply (.var x k) = Term.shiftFor x k r := by
  have hfollow : s.follow x k = .ok (.bound x r k) := by
    rw [follow, followFrom_eq, hx]
    cases r with
    | var => cases hr
    | const | app => rfl
  rw [apply, applyAvoiding_var, hfollow]
  show (if x ∈ [] then _ else _) = _
  rw [if_neg List.not_mem_nil, hs.applyAvoiding_eq_self hx]
  rfl

/-- The walk from a variable is over after one binding. -/
theorem apply_var (x : String) (k : Int64) :
    s.apply (.var x k) = Term.imageIn s.bindings x k := by
  rw [Term.imageIn]
  cases hx : s.bindings.lookup x with
  | none => rw [apply, applyAvoiding_var, follow_of_get?_eq_none hx]
  | some r =>
    cases r with
    | var => exact hs.apply_var_of_var hx
    | const | app => exact hs.apply_var_of_isVariable hx rfl

/-- To apply a direct substitution is to replace its names in one traversal. -/
theorem apply_eq_replaceAll (t : Term) : s.apply t = t.replaceAll s.bindings := by
  rw [apply, applyAvoiding_eq_bindM]
  exact congrArg (Term.bindM · t) (funext fun x ↦ funext fun k ↦ hs.apply_var x k)

/-- **To apply a direct substitution is to replace its names one after another.** The names can be
replaced in any order: the application has a result exactly when the replacements have it, so both
fail together. A single replacement fails with the same error. -/
theorem apply_eq_ok_iff_replaceEach (t : Term) :
    (∀ order, order.Perm s.bindings →
      (∀ u, s.apply t = .ok u ↔ t.replaceEach order = .ok u) ∧
      ((∃ e, s.apply t = .error e) ↔ ∃ e, t.replaceEach order = .error e)) ∧
    ∀ x r, s.bindings = [(x, r)] → s.apply t = t.replace x r := by
  refine ⟨fun order horder ↦ ?_, fun x r hx ↦ ?_⟩
  · have hok : ∀ u, s.apply t = .ok u ↔ t.replaceEach order = .ok u := by
      intro u
      rw [hs.apply_eq_replaceAll, Term.replaceEach_eq_ok_iff, Term.replaceAll, Term.replaceAll,
        Term.imageIn_of_perm s.nodup horder]
      · exact (horder.map Prod.fst).nodup_iff.2 s.nodup
      · intro b hb y hy hmem
        exact hs b (horder.mem_iff.1 hb) y hy ((horder.map Prod.fst).mem_iff.1 hmem)
    exact ⟨hok, exists_eq_error_iff hok⟩
  · rw [hs.apply_eq_replaceAll, hx, Term.replaceAll_singleton]

end Direct

/-- With `x ↦ y + 9223372036854775807` and `z ↦ f(y)` the image of `g(x - 1, z, w + 1)` is also what
the replacement of `z` and then of `x` gives. With `x ↦ 9223372036854775807` alone the image of
`f(x, x + 1)` fails at `x + 1`, as the replacement does. -/
theorem Direct.apply_eq_ok_iff_replaceEach_maxValue :
    let two := ofList [("x", .var "y" Int64.maxValue), ("z", .app "f" [.var "y" 0])]
    let one := ofList [("x", .const (.int Int64.maxValue))]
    let t : Term := .app "g" [.var "x" (-1), .var "z" 0, .var "w" 1]
    let u : Term := .app "g" [.var "y" (Int64.maxValue - 1), .app "f" [.var "y" 0], .var "w" 1]
    let t' : Term := .app "f" [.var "x" 0, .var "x" 1]
    two.Direct ∧ one.Direct ∧
      two.bindings.reverse.Perm two.bindings ∧
      (two.apply t = .ok u ∧ t.replaceEach two.bindings.reverse = .ok u) ∧
      one.bindings = [("x", .const (.int Int64.maxValue))] ∧
      one.apply t' = t'.replace "x" (.const (.int Int64.maxValue)) ∧
      one.apply t' = .error ⟨"x", 1, .const (.int Int64.maxValue)⟩ := by
  intro two one t u t'
  have htwo : two.Direct := by decide +kernel
  have hone : one.Direct := by decide +kernel
  have hperm := List.reverse_perm two.bindings
  have happly : two.apply t = .ok u := by decide +kernel
  have hsingle : one.bindings = [("x", .const (.int Int64.maxValue))] := by decide +kernel
  exact ⟨htwo, hone, hperm,
    ⟨happly, (((htwo.apply_eq_ok_iff_replaceEach t).1 _ hperm).1 u).1 happly⟩, hsingle,
    (hone.apply_eq_ok_iff_replaceEach t').2 _ _ hsingle, by decide +kernel⟩

end Substitution

end OffsetLogic
