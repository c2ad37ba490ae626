import Mathlib.Algebra.Order.BigOperators.Group.Finset
import Mathlib.Data.Finset.Card
import OffsetLogic.Proofs.Semantics.Free

/-!
# Solutions in small numbers

Words are bounded, and a solution of an equation may lie at the end of their range, where the
offsets that add up on the way between two variables would not fit. But an equation sees little of
the numbers in its solution. When `m` bounds the offsets and the integers of the two sides, it only
compares numbers that are at most `m` away from the value of a variable or from zero.

So the gaps can be taken out. `squeeze` counts the numbers below a number, but only those in the
**windows** of radius `m` around the values that matter: inside a window it moves by one as its
argument does, and between the windows it stands still. The result is a solution whose numbers,
**also those deep inside of a value**, are at most as large as the windows together
(`exists_within`).

## What squeezing keeps

A function on the integers acts on elements by acting on every integer in them (`Element.mapInt`).
To keep an equation it must commute with the value of both sides, and for that two things are
enough: it leaves the integers of the terms alone, and it respects the offsets of the terms at the
values of the variables (`Model.eval_mapInt`). Zero is among the points around which there are
windows, so small integers stay where they are (`squeeze_eq_self`); and the values of the variables
are the other points (`squeeze_add`).

## The bound

There is a window for each variable and one for zero, each of `2 * m` integers. The function is zero
at zero and never moves by more than one, so its values are no larger than all windows together.
Integers deep inside of the value of a variable have no windows of their own. They are mapped by the
same function, which keeps equal what was equal, and no more is asked of them.
-/

namespace OffsetLogic

namespace Term

mutual

/-- The largest absolute value of an offset or an integer of a term. -/
def magnitude : Term → Nat
  | .const (.int n) => n.toInt.natAbs
  | .const (.symbol _) => 0
  | .var _ k => k.toInt.natAbs
  | .app _ ts => magnitudeArgs ts

/-- The largest absolute value of an offset or an integer of an argument list. -/
def magnitudeArgs : List Term → Nat
  | [] => 0
  | t :: ts => max t.magnitude (magnitudeArgs ts)

end

theorem magnitude_le_of_mem {g : String} {ts : List Term} {t : Term} (ht : t ∈ ts) :
    t.magnitude ≤ (app g ts).magnitude := by
  rw [magnitude]
  induction ts with
  | nil => cases ht
  | cons u ts ih =>
    rw [magnitudeArgs]
    rcases List.mem_cons.1 ht with rfl | ht
    · exact le_max_left _ _
    · exact (ih ht).trans (le_max_right _ _)

end Term

namespace Element

mutual

/-- The element with `f` applied to every integer. -/
def mapInt (f : Int → Int) : Element → Element
  | int n => int (f n)
  | symbol a k => symbol a k
  | var x k => var x k
  | app g ds k => app g (mapIntArgs f ds) k

/-- The argument list with `f` applied to every integer. -/
def mapIntArgs (f : Int → Int) : List Element → List Element
  | [] => []
  | d :: ds => d.mapInt f :: mapIntArgs f ds

end

theorem mapIntArgs_eq_map (f : Int → Int) (ds : List Element) :
    mapIntArgs f ds = ds.map (mapInt f) := by
  induction ds with
  | nil => rfl
  | cons d ds ih => rw [mapIntArgs, ih, List.map_cons]

/-- Moving an element moves an integer at its top only, so that is where the function must respect
the offset. -/
theorem mapInt_shift {f : Int → Int} {d : Element} {k : Int}
    (h : ∀ n, d = int n → f (n + k) = f n + k) :
    (d.shift k).mapInt f = (d.mapInt f).shift k := by
  cases d with
  | int n => rw [shift, mapInt, mapInt, shift, h n rfl]
  | symbol | var | app => rfl

/-- The element is a tree of integers of absolute value at most `B`, symbols and applications, of
which nothing was moved. -/
inductive Within (B : Nat) : Element → Prop where
  | int {n : Int} : n.natAbs ≤ B → Within B (int n)
  | symbol (a : String) : Within B (symbol a 0)
  | app (g : String) {ds : List Element} : (∀ d ∈ ds, Within B d) → Within B (app g ds 0)

end Element

/-! ### Taking out the gaps -/

section

/-- The integers at most `m` away from one of `S`, the largest ones left out. -/
def windows (m : Nat) (S : Finset Int) : Finset Int :=
  S.biUnion fun p ↦ (Finset.range (2 * m)).image fun i : Nat ↦ p - m + i

/-- The number of integers in the windows that are less than `n`, counted from zero. -/
def squeeze (m : Nat) (S : Finset Int) (n : Int) : Int :=
  ((windows m S).filter (· < n)).card - ((windows m S).filter (· < 0)).card

variable {m : Nat} {S : Finset Int} {p n k : Int}

/-- A number near one of the points is in a window. -/
theorem mem_windows (hp : p ∈ S) (hn : p - m ≤ n) (hnp : n < p + m) : n ∈ windows m S := by
  refine Finset.mem_biUnion.2 ⟨p, hp, Finset.mem_image.2 ⟨(n - (p - m)).toNat, ?_, by omega⟩⟩
  rw [Finset.mem_range]
  omega

/-- Windows overlap at most, so there are no more numbers in them than their sizes add up to. -/
theorem card_windows_le (m : Nat) (S : Finset Int) : (windows m S).card ≤ 2 * m * S.card := by
  rw [Nat.mul_comm]
  refine Finset.card_biUnion_le_card_mul _ _ _ fun p _ ↦ Finset.card_image_le.trans ?_
  rw [Finset.card_range]

@[simp] theorem squeeze_zero (m : Nat) (S : Finset Int) : squeeze m S 0 = 0 := Int.sub_self _

/-- A value counts numbers in the windows, above zero or below it. -/
theorem natAbs_squeeze_le (n : Int) : (squeeze m S n).natAbs ≤ 2 * m * S.card := by
  have hn := Finset.card_filter_le (windows m S) (· < n)
  have hzero := Finset.card_filter_le (windows m S) (· < 0)
  have := card_windows_le m S
  unfold squeeze
  omega

/-- A number in the windows is counted. -/
theorem squeeze_add_one (hn : n ∈ windows m S) : squeeze m S (n + 1) = squeeze m S n + 1 := by
  have hsplit : (windows m S).filter (· < n + 1) = insert n ((windows m S).filter (· < n)) := by
    ext i
    rw [Finset.mem_insert, Finset.mem_filter, Finset.mem_filter]
    constructor
    · rintro ⟨hi, hlt⟩
      by_cases hin : i = n
      · exact .inl hin
      · exact .inr ⟨hi, by omega⟩
    · rintro (rfl | ⟨hi, hlt⟩)
      · exact ⟨hn, by omega⟩
      · exact ⟨hi, by omega⟩
  have hnotMem : n ∉ (windows m S).filter (· < n) := by simp
  unfold squeeze
  rw [hsplit, Finset.card_insert_of_notMem hnotMem]
  omega

theorem squeeze_add_nat {i : Nat} (hp : p ∈ S) (hn : p - m ≤ n) (hi : n + i ≤ p + m) :
    squeeze m S (n + i) = squeeze m S n + i := by
  induction i with
  | zero => simp
  | succ i ih =>
    have hmem : n + i ∈ windows m S := mem_windows hp (by omega) (by omega)
    rw [Int.natCast_succ, ← Int.add_assoc, squeeze_add_one hmem, ih (by omega), Int.add_assoc]

/-- Inside a window nothing changes but the origin. -/
theorem squeeze_add (hp : p ∈ S) (hk : k.natAbs ≤ m) :
    squeeze m S (p + k) = squeeze m S p + k := by
  rcases Int.le_total 0 k with h | h
  · have := squeeze_add_nat (m := m) (n := p) (i := k.toNat) hp (by omega) (by omega)
    rwa [Int.toNat_of_nonneg h] at this
  · have := squeeze_add_nat (m := m) (n := p + k) (i := (-k).toNat) hp (by omega) (by omega)
    rw [Int.toNat_of_nonneg (by omega), Int.add_neg_cancel_right] at this
    omega

/-- Near zero nothing changes when zero is one of the points. -/
theorem squeeze_eq_self (hS : 0 ∈ S) (hn : n.natAbs ≤ m) : squeeze m S n = n := by
  rw [← Int.zero_add n, squeeze_add hS hn, squeeze_zero]

end

/-! ### The squeezed solution -/

namespace Model

variable {v : String → Element} {f : Int → Int} {m : Nat} {t : Term}

/-- A function on the integers that keeps small ones and respects small offsets from the values of
the variables commutes with the value of a term. -/
theorem eval_mapInt (hint : ∀ n : Int, n.natAbs ≤ m → f n = n)
    (hvar : ∀ x ∈ t.occurrences, ∀ n, v x = .int n → ∀ k : Int, k.natAbs ≤ m → f (n + k) = f n + k)
    (ht : t.magnitude ≤ m) :
    free.eval (fun x ↦ (v x).mapInt f) t = (free.eval v t).mapInt f := by
  induction t with
  | const a =>
    cases a with
    | int n => rw [eval_free_int, eval_free_int, Element.mapInt, hint _ ht]
    | symbol a => rfl
  | var x k =>
    rw [eval_free_var, eval_free_var, Element.mapInt_shift]
    exact fun n hn ↦ hvar x (List.mem_singleton_self x) n hn _ ht
  | app g ts ih =>
    rw [eval_free_app, eval_free_app, Element.mapInt, Element.mapIntArgs_eq_map, List.map_map]
    refine congrArg (Element.app g · 0) (List.map_congr_left fun t hmem ↦ ih t hmem ?_ ?_)
    · exact fun x hx ↦ hvar x (Term.mem_occurrences_app.2 ⟨t, hmem, hx⟩)
    · exact (Term.magnitude_le_of_mem hmem).trans ht

end Model

/-- The value of a term whose variables are all zero. -/
def Term.atZero (t : Term) : Element := Model.free.eval (fun _ ↦ .int 0) t

/-- Nothing was moved in the value of a term at zero. -/
theorem Term.within_mapInt_atZero {f : Int → Int} {B : Nat} (hf : ∀ n, (f n).natAbs ≤ B)
    (t : Term) : (t.atZero.mapInt f).Within B := by
  induction t with
  | const a =>
    cases a with
    | int n => exact .int (hf _)
    | symbol a => exact .symbol a
  | var x k => exact .int (hf _)
  | app g ts ih =>
    rw [atZero, Model.eval_free_app, Element.mapInt, Element.mapIntArgs_eq_map, List.map_map]
    refine .app g fun d hd ↦ ?_
    obtain ⟨t, ht, rfl⟩ := List.mem_map.1 hd
    exact ih t ht

/-- The integer of an element that is one, and zero otherwise. -/
def Element.toInt : Element → Int
  | .int n => n
  | _ => 0

/-- **Solutions can be small.** When two terms take one value in a solution made of terms, there is
a solution in which no number is larger than twice the magnitude of the two terms, once for every
variable and once more. -/
theorem Model.exists_within {a b u : Term} {θ : String → Term} {m : Nat} (ham : a.magnitude ≤ m)
    (hbm : b.magnitude ≤ m) (ha : free.eval (fun x ↦ (θ x).atZero) a = u.atZero)
    (hb : free.eval (fun x ↦ (θ x).atZero) b = u.atZero) :
    ∃ v d, (∀ x, (v x).Within (2 * m * ((a.variableNames ∪ b.variableNames).size + 1))) ∧
      d.Within (2 * m * ((a.variableNames ∪ b.variableNames).size + 1)) ∧
      free.eval v a = d ∧ free.eval v b = d := by
  generalize hnames : a.variableNames ∪ b.variableNames = names
  generalize hS : insert 0 (names.toList.toFinset.image fun x ↦ (θ x).atZero.toInt) = S
  have hzero : 0 ∈ S := hS ▸ Finset.mem_insert_self _ _
  have hvalue : ∀ {x}, x ∈ names → ∀ {n}, (θ x).atZero = .int n → n ∈ S := by
    intro x hx n hn
    rw [← hS]
    refine Finset.mem_insert_of_mem (Finset.mem_image.2 ⟨x, List.mem_toFinset.2 hx, ?_⟩)
    rw [hn]
    rfl
  have hcard : S.card ≤ names.size + 1 := by
    rw [← hS]
    exact (Finset.card_insert_le _ _).trans
      (Nat.succ_le_succ (Finset.card_image_le.trans (List.toFinset_card_le _)))
  have hf : ∀ n, (squeeze m S n).natAbs ≤ 2 * m * (names.size + 1) :=
    fun n ↦ (natAbs_squeeze_le n).trans (Nat.mul_le_mul_left _ hcard)
  have heval : ∀ t : Term, (∀ x ∈ t.occurrences, x ∈ names) → t.magnitude ≤ m →
      free.eval (fun x ↦ (θ x).atZero) t = u.atZero →
      free.eval (fun x ↦ (θ x).atZero.mapInt (squeeze m S)) t =
        u.atZero.mapInt (squeeze m S) := by
    intro t ht htm h
    rw [← h]
    exact eval_mapInt (fun n ↦ squeeze_eq_self hzero)
      (fun x hx n hn k ↦ squeeze_add (hvalue (ht x hx) hn)) htm
  refine ⟨_, _, fun x ↦ (θ x).within_mapInt_atZero hf, u.within_mapInt_atZero hf,
    heval a ?_ ham ha, heval b ?_ hbm hb⟩
  · exact fun x hx ↦ hnames ▸ SortedSet.mem_union.2 (.inl (Term.mem_variableNames.2 hx))
  · exact fun x hx ↦ hnames ▸ SortedSet.mem_union.2 (.inr (Term.mem_variableNames.2 hx))

end OffsetLogic
