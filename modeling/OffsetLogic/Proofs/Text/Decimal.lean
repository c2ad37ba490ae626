import Mathlib.Data.List.TakeWhile

/-!
# Numbers in decimal digits

The readers of numbers rest on how numbers are written: in digits, the first of which is zero for
zero alone (`Decimal.exists_toDigits_eq_cons`), and after a minus if the number is negative
(`Decimal.toList_toString_cases`).

Two formats are read, and both have numbers in more forms than those that are written here: leading
zeros, fractions, exponents, other bases, dates. What a reader has to know of a text that was
written is that none of these can begin there. It is stated once, about the text alone, and each
reader draws from it what its own format asks for.

Numbers are written by the library, so nothing here is a definition. The lemmas are about lists of
characters, as the readers work on these.
-/

namespace OffsetLogic.Decimal

/-- The digits of a positive number begin with one that is not zero. -/
theorem exists_toDigits_eq_cons {n : Nat} (hn : 0 < n) :
    ∃ c cs, Nat.toDigits 10 n = c :: cs ∧ c ≠ '0' := by
  induction n using Nat.strongRecOn with
  | ind n ih =>
    by_cases hlt : n < 10
    · refine ⟨n.digitChar, [], Nat.toDigits_of_lt_base hlt, fun h ↦ ?_⟩
      have := Nat.digitChar_eq_zero.1 h
      omega
    · obtain ⟨c, cs, hcs, hc⟩ := ih (n / 10) (by omega) (by omega)
      refine ⟨c, cs ++ [(n % 10).digitChar], ?_, hc⟩
      rw [Nat.toDigits_of_base_le (by decide) (by omega), hcs]
      rfl

theorem isDigit_of_mem_toDigits {n : Nat} {c : Char} (hc : c ∈ Nat.toDigits 10 n) :
    c.isDigit = true :=
  Nat.isDigit_of_mem_toDigits (by decide) (by decide) hc

/-- A number is one run of digits, with nothing after it. -/
theorem takeWhile_toDigits (n : Nat) :
    (Nat.toDigits 10 n).takeWhile Char.isDigit = Nat.toDigits 10 n ∧
      (Nat.toDigits 10 n).dropWhile Char.isDigit = [] :=
  ⟨List.takeWhile_eq_self_iff.2 fun _ ↦ isDigit_of_mem_toDigits,
    List.dropWhile_eq_nil_iff.2 fun _ ↦ isDigit_of_mem_toDigits⟩

/-- An integer is written in the digits of its absolute value, after a minus if it is negative. -/
theorem toList_toString_cases (n : Int) :
    (∃ m : Nat, n = m ∧ (toString n).toList = Nat.toDigits 10 m) ∨
      ∃ m : Nat, 0 < m ∧ n = -m ∧ (toString n).toList = '-' :: Nat.toDigits 10 m := by
  rw [Int.toString_eq_repr, Int.repr_eq_if]
  split
  · rename_i hn
    exact .inl ⟨n.toNat, (Int.toNat_of_nonneg hn).symm, Nat.toList_repr⟩
  · refine .inr ⟨(-n).toNat, by omega, by omega, ?_⟩
    rw [String.toList_append, Nat.toList_repr]
    rfl

/-- No other characters occur in an integer. -/
theorem of_mem_toString {n : Int} {c : Char} (hc : c ∈ (toString n).toList) :
    c.isDigit = true ∨ c = '-' := by
  obtain ⟨m, -, hm⟩ | ⟨m, -, -, hm⟩ := toList_toString_cases n
  · rw [hm] at hc
    exact .inl (isDigit_of_mem_toDigits hc)
  · rw [hm, List.mem_cons] at hc
    exact hc.symm.imp_left isDigit_of_mem_toDigits

/-- The text of an integer begins with a digit or a minus. -/
theorem exists_toString_eq_cons (n : Int) :
    ∃ c cs, (toString n).toList = c :: cs ∧ (c.isDigit = true ∨ c = '-') := by
  have hne : (toString n).toList ≠ [] := by
    obtain ⟨m, -, hm⟩ | ⟨m, -, -, hm⟩ := toList_toString_cases n
    · exact hm ▸ Nat.toDigits_ne_nil
    · exact hm ▸ List.cons_ne_nil _ _
  obtain ⟨c, cs, hcs⟩ := List.exists_cons_of_ne_nil hne
  exact ⟨c, cs, hcs, of_mem_toString (hcs ▸ List.mem_cons_self)⟩

end OffsetLogic.Decimal
