import OffsetLogic.Proofs.Substitution.Applied

/-!
# Variables with their offsets

What a substitution does at a variable depends on its name and on the offset that it has there. The
**places** of a term are both, for every occurrence of a variable, and a traversal of the term is
settled by what it does at each place: the places of the result are those of what was put there
(`Term.mem_places_of_bindM`), and a traversal that puts every variable back changes nothing
(`Term.bindM_eq_self`), as the application of a substitution does where its walks end at once
(`Substitution.applyAvoiding_eq_self`).

The occurrences of a term, which are its names without offsets, do not suffice for this. One
variable may occur with several offsets, and a walk that ends at once from one of them may fail from
another, where a sum is out of range. Where only the names matter, `Term.mem_occurrences_iff` goes
from one to the other.
-/

namespace OffsetLogic

namespace Term

mutual

/-- The variables of a term with their offsets, one for each occurrence, from left to right. -/
def places : Term → List (String × Int64)
  | .const _ => []
  | .var x k => [(x, k)]
  | .app _ ts => placesArgs ts

/-- The variables of an argument list with their offsets, one for each occurrence, from left to
right. -/
def placesArgs : List Term → List (String × Int64)
  | [] => []
  | t :: ts => t.places ++ placesArgs ts

end

variable {t u : Term} {x : String} {k : Int64} {e : String × Int64} {g : String} {ts : List Term}

theorem placesArgs_eq_flatMap (ts : List Term) : placesArgs ts = ts.flatMap places := by
  induction ts with
  | nil => rfl
  | cons t ts ih => rw [placesArgs, ih, List.flatMap_cons]

theorem mem_places_app : e ∈ (app g ts).places ↔ ∃ t ∈ ts, e ∈ t.places := by
  rw [places, placesArgs_eq_flatMap, List.mem_flatMap]

/-- A name occurs when it does with some offset. -/
theorem mem_occurrences_iff : x ∈ t.occurrences ↔ ∃ k, (x, k) ∈ t.places := by
  induction t with
  | const a => simp [occurrences, places]
  | var y k => simp [occurrences, places]
  | app g ts ih =>
    simp only [mem_occurrences_app, mem_places_app]
    constructor
    · rintro ⟨t, ht, hx⟩
      obtain ⟨k, hk⟩ := (ih t ht).1 hx
      exact ⟨k, t, ht, hk⟩
    · rintro ⟨k, t, ht, hk⟩
      exact ⟨t, ht, (ih t ht).2 ⟨k, hk⟩⟩

/-- A shift moves variables and integers only. -/
theorem places_shifted (h : t.shifted k = some u) (ht : t.isVariable = false) :
    u.places = t.places := by
  unfold shifted at h
  split at h
  · rw [Option.some.inj h]
  · split at h
    · cases ht
    · obtain ⟨m, -, rfl⟩ := Option.map_eq_some_iff.1 h
      rfl
    · cases h
    · cases h

/-! ### Traversals -/

section

variable {ε : Type} {f : String → Int64 → Except ε Term}

/-- Only a variable is replaced by something else at the top. -/
theorem isVariable_of_bindM (h : t.bindM f = .ok u) (ht : t.isVariable = false) :
    u.isVariable = false := by
  cases t with
  | const a =>
    cases h
    rfl
  | var => cases ht
  | app g ts =>
    obtain ⟨us, -, rfl⟩ := bindM_app_eq_ok.1 h
    rfl

/-- A place of the result is a place of what was put in the place of a variable. -/
theorem mem_places_of_bindM (h : t.bindM f = .ok u) (he : e ∈ u.places) :
    ∃ p ∈ t.places, ∃ r, f p.1 p.2 = .ok r ∧ e ∈ r.places := by
  induction t generalizing u with
  | const a =>
    cases h
    cases he
  | var x k => exact ⟨(x, k), List.mem_singleton_self _, u, h, he⟩
  | app g ts ih =>
    obtain ⟨us, hus, rfl⟩ := bindM_app_eq_ok.1 h
    obtain ⟨v, hv, he⟩ := mem_places_app.1 he
    obtain ⟨t, ht, hv⟩ := (mem_of_mapM_eq_ok hus).1 hv
    obtain ⟨p, hp, r, hr, he⟩ := ih t ht hv he
    exact ⟨p, mem_places_app.2 ⟨t, ht, hp⟩, r, hr, he⟩

/-- A traversal that puts every variable back gives the term itself. -/
theorem bindM_eq_self (h : ∀ e ∈ t.places, f e.1 e.2 = .ok (.var e.1 e.2)) :
    t.bindM f = .ok t := by
  induction t with
  | const a => rfl
  | var x k => exact h (x, k) (List.mem_singleton_self _)
  | app g ts ih =>
    refine bindM_app_eq_ok.2 ⟨ts, mapM_eq_ok_of_map_eq_map (p := id) (q := id) rfl ?_, rfl⟩
    intro t ht u (hu : u = t)
    exact hu ▸ ih t ht fun e he ↦ h e (mem_places_app.2 ⟨t, ht, he⟩)

end

end Term

/-- A substitution whose walks end at once in a term leaves the term alone. -/
theorem Substitution.applyAvoiding_eq_self {s : Substitution} {expanding : List String} {t : Term}
    (h : ∀ e ∈ t.places, s.follow e.1 e.2 = .ok (.free e.1 e.2)) :
    s.applyAvoiding expanding t = .ok t := by
  rw [applyAvoiding_eq_bindM]
  refine Term.bindM_eq_self fun e he ↦ ?_
  rw [applyAvoiding_var, h e he]

end OffsetLogic
