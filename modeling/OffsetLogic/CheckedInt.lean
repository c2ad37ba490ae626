/-!
# Checked arithmetic on 64-bit integers

Offsets and integer constants are signed 64-bit words, and arithmetic on them is **checked**: a sum
or a difference that leaves the range is `none`, never a wrapped word. The view of a word is its
value `Int64.toInt`, and each operation below is settled by one equation in `Int`.

Words have an addition that wraps around as well, and nothing here is stated about it. A proof about
offsets rewrites a checked sum that is some word to the equation between values (`add?_eq_some_iff`,
`sub?_eq_some_iff`) and goes on in `Int`, where sums associate and cancel without conditions; it
comes back to words only for the result. The failures are described once, by `ofInt?_eq_none_iff`: a
value has no word exactly when it lies outside the range.
-/

namespace Int64

/-- The word of value `n`, if `n` is in range. -/
def ofInt? (n : Int) : Option Int64 :=
  if h : minValue.toInt ≤ n ∧ n ≤ maxValue.toInt then some (ofIntLE n h.1 h.2) else none

/-- The sum of two words, if it is in range. -/
def add? (j k : Int64) : Option Int64 := ofInt? (j.toInt + k.toInt)

/-- The difference of two words, if it is in range. -/
def sub? (j k : Int64) : Option Int64 := ofInt? (j.toInt - k.toInt)

/-- A value has at most one word, the one whose value it is. -/
theorem ofInt?_eq_some_iff {n : Int} {k : Int64} : ofInt? n = some k ↔ k.toInt = n := by
  unfold ofInt?
  constructor
  · intro h
    split at h
    · rw [← Option.some.inj h, toInt_ofIntLE]
    · cases h
  · rintro rfl
    rw [dif_pos ⟨k.minValue_le_toInt, k.toInt_le⟩, ofIntLE_toInt]

/-- A value has no word exactly when it lies beyond an end of the range. -/
theorem ofInt?_eq_none_iff {n : Int} :
    ofInt? n = none ↔ n < minValue.toInt ∨ maxValue.toInt < n := by
  unfold ofInt?
  split
  · simp only [reduceCtorEq, false_iff]
    omega
  · simp only [true_iff]
    omega

@[simp] theorem ofInt?_toInt (k : Int64) : ofInt? k.toInt = some k :=
  ofInt?_eq_some_iff.2 rfl

/-- A checked sum is the word whose value is the sum of the values. -/
theorem add?_eq_some_iff {j k l : Int64} : j.add? k = some l ↔ l.toInt = j.toInt + k.toInt :=
  ofInt?_eq_some_iff

/-- A checked difference is the word whose value is the difference of the values. -/
theorem sub?_eq_some_iff {j k l : Int64} : j.sub? k = some l ↔ l.toInt = j.toInt - k.toInt :=
  ofInt?_eq_some_iff

@[simp] theorem add?_zero (k : Int64) : k.add? 0 = some k :=
  add?_eq_some_iff.2 (by simp)

@[simp] theorem zero_add? (k : Int64) : (0 : Int64).add? k = some k :=
  add?_eq_some_iff.2 (by simp)

@[simp] theorem sub?_zero (k : Int64) : k.sub? 0 = some k :=
  sub?_eq_some_iff.2 (by simp)

/-- Whether a sum exists does not depend on the order of the two. -/
theorem add?_comm (j k : Int64) : j.add? k = k.add? j := by
  simp [add?, Int.add_comm]

end Int64
