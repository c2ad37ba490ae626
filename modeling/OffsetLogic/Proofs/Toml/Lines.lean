import OffsetLogic.Proofs.Text.Decimal
import OffsetLogic.Toml.Parser

/-!
# Lines of a TOML document

The plainest documents are lines, each of which sets a key to a value. A reader of the whole format
could take such a line for something else: a key for the beginning of a dotted or quoted one, the
value for a date, a float or a number to another base, the end of the line for a part of the value.
That it does not depends on what comes next at each step, so each scanner is told what it finds
there and **what it leaves**, with the rest of the text general (`Scan.bind_eq` joins the steps).

What the steps need of a line is kept with it (`Line`): its key is bare, and its value is read up to
the end of the line. Integers and truth values are such values (`Line.integer`, `Line.boolean`). A
document of lines is then read as their statements, and if their keys are different, it makes their
entries (`parse?_document`).

## Equations of scanners

A scanner is a function of the characters that are left. For each there is one equation about the
texts that are met here, with its side conditions about the next character: `blanks` stops at what
is not blank, `skipMark` at another mark, `simpleKey` at the first character that cannot stand in a
key. The equations are put together by `Scan.bind_eq` in the order in which the scanner runs, so a
proof about a larger scanner is a list of such steps.

## What a value must not look like

The value of a line is read by trying one form after another, and the first that fits is taken. So a
line must know more of its value than that some form fits. A number begins with a digit or a minus,
which sets it apart from texts, lists, tables and truth values, and its digits end with the line,
which sets it apart from dates, times, fractions and other bases (`Number.not_beginsMoment`,
`Number.number_toString`).

## From statements to entries

Reading a document is reading statements until the text is empty, under a bound on their number, for
which the number of characters is enough (`length_le_document`). The statements are then added to a
table one after another, where a key that is set twice is an error; that is the only condition on
the lines together.
-/

namespace OffsetLogic.Toml

open Decimal

/-! ### Integers -/

namespace Number

variable {c : Char} {cs rest : List Char}

theorem cons_ne_of_isDigit {d : Char} {ds : List Char} (hc : c.isDigit = true)
    (hd : d.isDigit = false) : c :: cs ≠ d :: ds := by
  rintro h
  rw [(List.cons.inj h).1, hd] at hc
  cases hc

/-- A run of digits ends with its line. -/
theorem moreDigits_append (hcs : ∀ d ∈ cs, d.isDigit = true) :
    moreDigits Char.isDigit (cs ++ '\n' :: rest) = some (cs, '\n' :: rest) := by
  induction cs with
  | nil => simp [moreDigits]
  | cons c cs ih =>
    have hc := hcs c List.mem_cons_self
    have hne : c ≠ '_' := by
      rintro rfl
      cases hc
    rw [List.cons_append, moreDigits, if_pos hc, ih fun d hd ↦ hcs d (List.mem_cons_of_mem c hd)]
    · rfl
    · exact fun _ _ h ↦ absurd h hne
    · exact fun h ↦ absurd h hne

/-- The digits of a number are read up to the end of the line. -/
theorem digits_append (hcs : ∀ d ∈ c :: cs, d.isDigit = true) :
    digits Char.isDigit (c :: (cs ++ '\n' :: rest)) = some (c :: cs, '\n' :: rest) := by
  rw [digits, if_pos (hcs c List.mem_cons_self),
    moreDigits_append fun d hd ↦ hcs d (List.mem_cons_of_mem c hd)]
  rfl

/-- The digits of a number are all read, since no zero among them is superfluous. -/
theorem wholeDigits_toDigits (n : Nat) (rest : List Char) :
    wholeDigits (Nat.toDigits 10 n ++ '\n' :: rest) = some (Nat.toDigits 10 n, '\n' :: rest) := by
  rcases Nat.eq_zero_or_pos n with rfl | hn
  · rfl
  · obtain ⟨c, cs, hcs, hc⟩ := exists_toDigits_eq_cons hn
    rw [hcs, List.cons_append, wholeDigits]
    · exact digits_append fun d hd ↦ isDigit_of_mem_toDigits (hcs ▸ hd)
    · exact fun _ h ↦ hc (List.cons.inj h).1

/-- With the end of the line after it, a run of digits is an integer and no fraction. -/
theorem decimal_toDigits (negative : Bool) (n : Nat) (rest : List Char) :
    decimal negative (Nat.toDigits 10 n ++ '\n' :: rest) =
      integer (if negative then -n else n) ('\n' :: rest) := by
  obtain ⟨c, cs, hcs⟩ := List.exists_cons_of_ne_nil (Nat.toDigits_ne_nil (n := n) (b := 10))
  have hc : c.isDigit = true := isDigit_of_mem_toDigits (hcs ▸ List.mem_cons_self)
  have hfinite : nonFinite (Nat.toDigits 10 n ++ '\n' :: rest) = none := by
    rw [hcs, List.cons_append, nonFinite]
    · exact fun _ ↦ cons_ne_of_isDigit hc (by decide)
    · exact fun _ ↦ cons_ne_of_isDigit hc (by decide)
  rw [decimal, hfinite]
  dsimp only
  rw [wholeDigits_toDigits]
  simp [ofDigits]

/-- Digits that begin with another one than zero are those of a decimal number. -/
theorem number_toDigits (n : Nat) (rest : List Char) :
    number (Nat.toDigits 10 n ++ '\n' :: rest) = integer n ('\n' :: rest) := by
  have hdecimal : number (Nat.toDigits 10 n ++ '\n' :: rest) =
      decimal false (Nat.toDigits 10 n ++ '\n' :: rest) := by
    rcases Nat.eq_zero_or_pos n with rfl | hn
    · rfl
    · obtain ⟨c, cs, hcs, hc⟩ := exists_toDigits_eq_cons hn
      have hdigit : c.isDigit = true := isDigit_of_mem_toDigits (hcs ▸ List.mem_cons_self)
      have hzero : ∀ {ds ds'}, c :: ds ≠ '0' :: ds' := fun h ↦ hc (List.cons.inj h).1
      rw [hcs, List.cons_append, number]
      · exact fun _ ↦ cons_ne_of_isDigit hdigit (by decide)
      · exact fun _ ↦ cons_ne_of_isDigit hdigit (by decide)
      · exact fun _ ↦ hzero
      · exact fun _ ↦ hzero
      · exact fun _ ↦ hzero
  rw [hdecimal, decimal_toDigits]
  rfl

/-- After a minus the digits are those of a decimal number, whatever the first one is. -/
theorem number_minus_toDigits (n : Nat) (rest : List Char) :
    number ('-' :: (Nat.toDigits 10 n ++ '\n' :: rest)) = integer (-n) ('\n' :: rest) := by
  rw [number, decimal_toDigits]
  rfl

/-- An integer is read back from its text. -/
theorem number_toString (k : Int64) (rest : List Char) :
    number ((toString k).toList ++ '\n' :: rest) = some (some k, '\n' :: rest) := by
  have hinteger : integer k.toInt ('\n' :: rest) = some (some k, '\n' :: rest) := by
    rw [integer, Int64.ofInt?_toInt]
    rfl
  show number ((toString k.toInt).toList ++ _) = _
  obtain ⟨m, hm, htext⟩ | ⟨m, -, hm, htext⟩ := toList_toString_cases k.toInt
  · rw [htext, number_toDigits, ← hm, hinteger]
  · rw [htext, List.cons_append, number_minus_toDigits, ← hm, hinteger]

/-- A date or a time begins with a digit, and its first run of digits ends at a dash or a colon. -/
theorem of_beginsMoment (h : beginsDate cs = true ∨ beginsTime cs = true) :
    (∃ c ds, cs = c :: ds ∧ c.isDigit = true) ∧
      ∃ d, (cs.dropWhile Char.isDigit).head? = some d ∧ d ≠ '\n' := by
  unfold beginsDate beginsTime at h
  rcases h with h | h <;> split at h
  · simp only [Bool.and_eq_true] at h
    exact ⟨⟨_, _, rfl, h.1.1.1⟩, '-', by simp [List.dropWhile, h], by decide⟩
  · cases h
  · simp only [Bool.and_eq_true] at h
    exact ⟨⟨_, _, rfl, h.1⟩, ':', by simp [List.dropWhile, h], by decide⟩
  · cases h

/-- The text of an integer does not begin like a date or a time: it begins with a minus, or its
digits end with the line. -/
theorem not_beginsMoment (k : Int64) (rest : List Char) :
    ¬ (beginsDate ((toString k).toList ++ '\n' :: rest) = true ∨
      beginsTime ((toString k).toList ++ '\n' :: rest) = true) := by
  intro h
  obtain ⟨⟨c, ds, hcs, hc⟩, d, hd, hne⟩ := of_beginsMoment h
  have htext : (toString k).toList = (toString k.toInt).toList := rfl
  obtain ⟨m, -, hm⟩ | ⟨m, -, -, hm⟩ := toList_toString_cases k.toInt
  · rw [htext, hm, List.dropWhile_append_of_pos fun _ ↦ isDigit_of_mem_toDigits] at hd
    exact hne (Option.some.inj hd).symm
  · rw [htext, hm] at hcs
    rw [← (List.cons.inj hcs).1] at hc
    cases hc

end Number

/-! ### Scanners -/

/-- A character of a key is none of the marks. -/
theorem ne_of_isBare {c d : Char} (hc : isBare c = true) (hd : isBare d = false) : c ≠ d := by
  rintro rfl
  cases hc.symm.trans hd

/-- The characters of a number can stand in a key. -/
theorem isBare_of_isDigit {c : Char} (hc : c.isDigit = true ∨ c = '-') : isBare c = true := by
  rcases hc with hc | rfl
  · simp [isBare, hc]
  · rfl

theorem not_blank_of_isBare {c : Char} (hc : isBare c = true) : isBlank c = false := by
  have hspace : c ≠ ' ' := ne_of_isBare hc (by decide)
  have htab : c ≠ '\t' := ne_of_isBare hc (by decide)
  simp [isBlank, hspace, htab]

/-- The characters of a key are not changed before they are read. -/
theorem uniform_of_isBare {c : Char} (hc : isBare c = true) : c ≠ '\r' ∧ c ≠ '\ufeff' :=
  ⟨ne_of_isBare hc (by decide), ne_of_isBare hc (by decide)⟩

namespace Scan

variable {α β : Type} {m : Scan α} {f : α → Scan β} {a : α} {c : Char} {cs cs' rest : List Char}
variable {x : String} {v : Node} {st : Statement}

/-- What comes after a scanner begins where the scanner stopped. -/
theorem bind_eq (h : m cs = some (a, cs')) : (m >>= f) cs = f a cs' := by
  show (m cs).bind _ = _
  rw [h]
  rfl

theorem blanks_eq (cs : List Char) : blanks cs = some ((), cs.dropWhile isBlank) := rfl

theorem peek?_eq (cs : List Char) : peek? cs = some (cs.head?, cs) := rfl

theorem rest_eq (cs : List Char) : Scan.rest cs = some (cs, cs) := rfl

theorem mark_eq (c : Char) (cs : List Char) : mark c (c :: cs) = some ((), cs) := by
  simp [mark, Number.mark]

theorem skipMark_eq_false {d : Char} (h : c ≠ d) : skipMark d (c :: cs) = some (false, c :: cs) :=
  if_neg h

/-- Where no blank is, none is taken. -/
theorem blanks_of_not_blank (hc : isBlank c = false) : blanks (c :: cs) = some ((), c :: cs) := by
  rw [blanks_eq, List.dropWhile_cons_of_neg (by simp [hc])]

/-- One blank is taken before what is not one. -/
theorem blanks_space (hc : isBlank c = false) : blanks (' ' :: c :: cs) = some ((), c :: cs) := by
  rw [blanks_eq, List.dropWhile_cons_of_pos rfl, List.dropWhile_cons_of_neg (by simp [hc])]

/-- The end of a line is taken, and nothing of the next one. -/
theorem lineEnd_eq (rest : List Char) : lineEnd ('\n' :: rest) = some ((), rest) := rfl

/-! ### Keys -/

/-- A key without quotes is the longest run of characters that can stand in one. -/
theorem simpleKey_of_head (hquote : cs.head? ≠ some '"') (happ : cs.head? ≠ some '\'') :
    simpleKey cs = (do
      let name ← run isBare
      if name.isEmpty then failure
      return String.ofList name : Scan String) cs := by
  rw [simpleKey, bind_eq (peek?_eq _)]
  refine congrFun ?_ cs
  split
  · rename_i h
    exact absurd h hquote
  · rename_i h
    exact absurd h happ
  · rfl

/-- A bare key is read up to the blank after it. -/
theorem simpleKey_eq (hc : isBare c = true) (hcs : ∀ d ∈ cs, isBare d = true) :
    simpleKey (c :: (cs ++ ' ' :: rest)) = some (String.ofList (c :: cs), ' ' :: rest) := by
  have hrun : run isBare (c :: (cs ++ ' ' :: rest)) = some (c :: cs, ' ' :: rest) := by
    have hall : ∀ d ∈ c :: cs, isBare d = true := List.forall_mem_cons.2 ⟨hc, hcs⟩
    show some (((c :: cs) ++ ' ' :: rest).takeWhile isBare,
      ((c :: cs) ++ ' ' :: rest).dropWhile isBare) = _
    rw [List.takeWhile_append_of_pos hall, List.dropWhile_append_of_pos hall]
    simp [isBare]
  rw [simpleKey_of_head, bind_eq hrun]
  · rfl
  · exact fun h ↦ ne_of_isBare hc (by decide) (Option.some.inj h)
  · exact fun h ↦ ne_of_isBare hc (by decide) (Option.some.inj h)

/-- No dot follows, so the key has one part. -/
theorem keyFrom_eq (n : Nat) (hc : isBare c = true) (hcs : ∀ d ∈ cs, isBare d = true) :
    keyFrom (n + 1) (c :: (cs ++ ' ' :: '=' :: rest)) =
      some ([String.ofList (c :: cs)], '=' :: rest) := by
  rw [keyFrom, bind_eq (blanks_of_not_blank (not_blank_of_isBare hc)),
    bind_eq (simpleKey_eq hc hcs), bind_eq (blanks_space (by decide)),
    bind_eq (skipMark_eq_false (by decide))]
  rfl

/-- A key of one part is read up to the sign that follows it. -/
theorem key_eq (hc : isBare c = true) (hcs : ∀ d ∈ cs, isBare d = true) :
    key (c :: (cs ++ ' ' :: '=' :: rest)) = some (([], String.ofList (c :: cs)), '=' :: rest) := by
  rw [key, bind_eq (rest_eq _), bind_eq (keyFrom_eq _ hc hcs)]
  rfl

/-! ### Values -/

/-- What begins neither a list nor a table is a value without parts. -/
theorem value_eq_scalar (depth : Nat) (hlist : cs.head? ≠ some '[')
    (htable : cs.head? ≠ some '\x7b') : value (depth + 1) cs = scalar cs := by
  rw [value, bind_eq (peek?_eq _)]
  refine congrFun ?_ cs
  split
  · rename_i h
    exact absurd h hlist
  · rename_i h
    exact absurd h htable
  · rfl

/-- A value that begins with neither a letter of a truth value nor a quote is a number, if it does
not begin like a date or a time. -/
theorem scalar_of_head (h : ∀ c ∈ cs.head?, c ≠ 't' ∧ c ≠ 'f' ∧ c ≠ '"' ∧ c ≠ '\'')
    (hmoment : ¬ (Number.beginsDate cs = true ∨ Number.beginsTime cs = true)) :
    scalar cs = (do
      match ← (Number.number : Scan Number.Numeral) with
      | some n => return .integer n
      | none => return .float (String.ofList (cs.take (cs.length - (← Scan.rest).length))) :
      Scan Node) cs := by
  rw [scalar, bind_eq (rest_eq _)]
  refine congrFun ?_ cs
  split
  · exact absurd rfl (h _ rfl).1
  · exact absurd rfl (h _ rfl).2.1
  · exact absurd rfl (h _ rfl).2.2.1
  · exact absurd rfl (h _ rfl).2.2.2
  · exact (if_neg (by simpa using hmoment)).trans rfl

/-- An integer is read up to the end of its line. -/
theorem value_toString (depth : Nat) (k : Int64) (rest : List Char) :
    value (depth + 1) ((toString k).toList ++ '\n' :: rest) =
      some (.integer k, '\n' :: rest) := by
  obtain ⟨c, cs, hcs, hc⟩ := exists_toString_eq_cons k.toInt
  have hne : ∀ d : Char, d.isDigit = false → d ≠ '-' →
      ((toString k).toList ++ '\n' :: rest).head? ≠ some d := by
    rintro d hd hminus h
    rw [show toString k = toString k.toInt from rfl, hcs] at h
    obtain rfl : c = d := Option.some.inj h
    exact hc.elim (fun hc ↦ by cases hc.symm.trans hd) hminus
  rw [value_eq_scalar depth (hne _ (by decide) (by decide)) (hne _ (by decide) (by decide)),
    scalar_of_head _ (Number.not_beginsMoment k rest), bind_eq (Number.number_toString k rest)]
  · rfl
  · intro d hd
    refine ⟨?_, ?_, ?_, ?_⟩ <;> rintro rfl <;> exact hne _ (by decide) (by decide) hd

theorem value_boolean (depth : Nat) (b : Bool) (rest : List Char) :
    value (depth + 1) ((toString b).toList ++ '\n' :: rest) =
      some (.boolean b, '\n' :: rest) := by
  cases b <;> rfl

/-! ### Statements -/

/-- What begins no header is read as a pair. -/
theorem statement_of_head (h : cs.head? ≠ some '[') (hp : pair (value (nestingLimit - 1)) cs =
    some (([], x, v), rest)) : statement cs = some (.pair [] x v, rest) := by
  have hskip : skipMark '[' cs = some (false, cs) := by
    cases cs with
    | nil => rfl
    | cons c cs => exact skipMark_eq_false fun hc ↦ h (congrArg some hc)
  rw [statement, bind_eq hskip]
  exact (bind_eq hp).trans rfl

/-- A line that is neither blank nor a comment gives one statement. -/
theorem statementsFrom_of_head (n : Nat) (hc : isBlank c = false) (hsharp : c ≠ '#')
    (hend : c ≠ '\n') (hs : statement (c :: cs) = some (st, '\n' :: rest)) :
    statementsFrom (n + 1) (c :: cs) =
      (statementsFrom n rest).map fun r ↦ (st :: r.1, r.2) := by
  have hline : statementsFrom (n + 1) (c :: cs) = (do
      let first ← statement
      lineEnd
      return first :: (← statementsFrom n) : Scan (List Statement)) (c :: cs) := by
    rw [statementsFrom, bind_eq (blanks_of_not_blank hc), bind_eq (peek?_eq _), List.head?_cons]
    refine congrFun ?_ _
    split
    · rename_i h
      cases h
    · rename_i h
      exact absurd (Option.some.inj h) hsharp
    · rename_i h
      exact absurd (Option.some.inj h) hend
    · rfl
  rw [hline, bind_eq hs, bind_eq (lineEnd_eq rest)]
  show (statementsFrom n rest).bind _ = _
  cases statementsFrom n rest <;> rfl

end Scan

/-! ### Lines -/

/-- Whether a key needs no quotes. -/
def isBareKey (key : String) : Bool := !key.toList.isEmpty && key.toList.all isBare

theorem isBareKey_iff {key : String} :
    isBareKey key = true ↔ key.toList ≠ [] ∧ ∀ c ∈ key.toList, isBare c = true := by
  rw [isBareKey, Bool.and_eq_true, Bool.not_eq_true', List.isEmpty_eq_false_iff, List.all_eq_true]

/-- A line that sets a key to a value. -/
structure Line where
  /-- The key. -/
  key : String
  /-- The text of the value. -/
  written : String
  /-- The value. -/
  value : Node
  /-- The key needs no quotes. -/
  bare : isBareKey key = true
  /-- The text of the value begins with what is not passed over before it. -/
  visible : ∃ c cs, written.toList = c :: cs ∧ isBlank c = false
  /-- The text of the value has no character that is changed before it is read. -/
  uniform : ∀ c ∈ written.toList, c ≠ '\r' ∧ c ≠ '\ufeff'
  /-- The value is read from its text. -/
  reads : ∀ rest, Scan.value (Scan.nestingLimit - 1) (written.toList ++ '\n' :: rest) =
    some (value, '\n' :: rest)

namespace Line

variable {rest : List Char}

/-- The line as it is written. -/
def text (l : Line) : String := s!"{l.key} = {l.written}\n"

/-- What the line says. -/
def statement (l : Line) : Statement := .pair [] l.key l.value

/-- The entry that the line makes. -/
def entry (l : Line) : String × Node := (l.key, l.value)

/-- The characters of a line, with what follows it. -/
theorem toList_text (l : Line) (rest : List Char) : l.text.toList ++ rest =
    l.key.toList ++ ' ' :: '=' :: ' ' :: (l.written.toList ++ '\n' :: rest) := by
  simp [text, toString]

theorem exists_key (l : Line) : ∃ c cs, l.key.toList = c :: cs ∧ isBare c = true ∧
    ∀ d ∈ cs, isBare d = true := by
  obtain ⟨hne, hall⟩ := isBareKey_iff.1 l.bare
  obtain ⟨c, cs, hcs⟩ := List.exists_cons_of_ne_nil hne
  rw [hcs, List.forall_mem_cons] at hall
  exact ⟨c, cs, hcs, hall⟩

/-- The line is read as its statement, and what follows it as what it says. -/
theorem statementsFrom_text (l : Line) (n : Nat) (rest : List Char) :
    Scan.statementsFrom (n + 1) (l.text.toList ++ rest) =
      (Scan.statementsFrom n rest).map fun r ↦ (l.statement :: r.1, r.2) := by
  obtain ⟨c, cs, hkey, hc, hcs⟩ := l.exists_key
  obtain ⟨d, ds, hwritten, hd⟩ := l.visible
  have hpair : Scan.pair (Scan.value (Scan.nestingLimit - 1)) (l.text.toList ++ rest) =
      some (([], l.key, l.value), '\n' :: rest) := by
    have hblank : Scan.blanks (' ' :: (l.written.toList ++ '\n' :: rest)) =
        some ((), l.written.toList ++ '\n' :: rest) := by
      rw [hwritten]
      exact Scan.blanks_space hd
    rw [toList_text, hkey, List.cons_append, Scan.pair, Scan.bind_eq (Scan.key_eq hc hcs)]
    dsimp only
    rw [Scan.bind_eq (Scan.mark_eq _ _), Scan.bind_eq hblank, Scan.bind_eq (l.reads rest), ← hkey,
      String.ofList_toList]
    rfl
  have hstatement : Scan.statement (l.text.toList ++ rest) = some (l.statement, '\n' :: rest) := by
    refine Scan.statement_of_head (fun h ↦ ?_) hpair
    rw [toList_text, hkey] at h
    exact ne_of_isBare hc (by decide) (Option.some.inj h)
  rw [toList_text, hkey, List.cons_append] at hstatement ⊢
  exact Scan.statementsFrom_of_head n (not_blank_of_isBare hc) (ne_of_isBare hc (by decide))
    (ne_of_isBare hc (by decide)) hstatement

/-- A line has no character that is changed before it is read. -/
theorem uniform_text (l : Line) : ∀ c ∈ l.text.toList, c ≠ '\r' ∧ c ≠ '\ufeff' := by
  intro c hc
  rw [← List.append_nil l.text.toList, toList_text] at hc
  simp only [List.mem_append, List.mem_cons, List.not_mem_nil, or_false] at hc
  rcases hc with hc | rfl | rfl | rfl | hc | rfl
  · exact uniform_of_isBare ((isBareKey_iff.1 l.bare).2 c hc)
  · decide
  · decide
  · decide
  · exact l.uniform c hc
  · decide

/-- The line that sets a key to an integer. -/
def integer (key : String) (bare : isBareKey key = true) (k : Int64) :
    Line where
  key := key
  written := toString k
  value := .integer k
  bare := bare
  visible := by
    obtain ⟨c, cs, hcs, hc⟩ := exists_toString_eq_cons k.toInt
    exact ⟨c, cs, hcs, not_blank_of_isBare (isBare_of_isDigit hc)⟩
  uniform := fun _ hc ↦ uniform_of_isBare (isBare_of_isDigit (of_mem_toString (n := k.toInt) hc))
  reads := Scan.value_toString _ k

/-- The line that sets a key to a truth value. -/
def boolean (key : String) (bare : isBareKey key = true) (b : Bool) :
    Line where
  key := key
  written := toString b
  value := .boolean b
  bare := bare
  visible := by
    cases b
    · exact ⟨'f', _, rfl, rfl⟩
    · exact ⟨'t', _, rfl, rfl⟩
  uniform := by
    have hbare : (toString b).toList.all isBare = true := by cases b <;> rfl
    exact fun c hc ↦ uniform_of_isBare (List.all_eq_true.1 hbare c hc)
  reads := Scan.value_boolean _ b

end Line

/-! ### Documents of lines -/

/-- The document of a list of lines. -/
def document : List Line → String
  | [] => ""
  | l :: ls => l.text ++ document ls

variable {cs : List Char} {ls ls' : List Line}

theorem document_append (ls ls' : List Line) :
    document (ls ++ ls') = document ls ++ document ls' := by
  induction ls with
  | nil => simp [document]
  | cons l ls ih => rw [List.cons_append, document, document, ih, String.append_assoc]

/-- Where there is nothing to be changed before reading, nothing is. -/
theorem uniform_eq_self (h : ∀ c ∈ cs, c ≠ '\r' ∧ c ≠ '\ufeff') : uniform cs = cs := by
  have hlines : ∀ {cs : List Char}, (∀ c ∈ cs, c ≠ '\r') → uniform.lineFeeds cs = cs := by
    intro cs
    induction cs with
    | nil => exact fun _ ↦ rfl
    | cons c cs ih =>
      intro hcs
      rw [List.forall_mem_cons] at hcs
      rw [uniform.lineFeeds, ih hcs.2]
      exact fun _ h ↦ absurd h hcs.1
  rw [uniform, hlines fun c hc ↦ (h c hc).1]
  rintro ds rfl
  exact (h _ List.mem_cons_self).2 rfl

theorem uniform_document (ls : List Line) :
    ∀ c ∈ (document ls).toList, c ≠ '\r' ∧ c ≠ '\ufeff' := by
  induction ls with
  | nil => exact fun _ hc ↦ nomatch hc
  | cons l ls ih =>
    intro c hc
    rw [document, String.toList_append, List.mem_append] at hc
    exact hc.elim (l.uniform_text c) (ih c)

/-- Line after line, on a bound above their number. -/
theorem statementsFrom_document {n : Nat} (hn : ls.length < n) :
    Scan.statementsFrom n (document ls).toList = some (ls.map Line.statement, []) := by
  induction ls generalizing n with
  | nil =>
    cases n with
    | zero => cases hn
    | succ n => rfl
  | cons l ls ih =>
    cases n with
    | zero => cases hn
    | succ n =>
      rw [document, String.toList_append, l.statementsFrom_text, ih (Nat.lt_of_succ_lt_succ hn)]
      rfl

/-- There are no more lines than characters. -/
theorem length_le_document (ls : List Line) : ls.length ≤ (document ls).toList.length := by
  induction ls with
  | nil => exact Nat.zero_le _
  | cons l ls ih =>
    have hline : 0 < l.text.toList.length := by
      rw [← List.append_nil l.text.toList, l.toList_text, List.length_append, List.length_cons]
      omega
    rw [document, String.toList_append, List.length_append, List.length_cons]
    omega

/-- Statements that set different keys add their entries one after another. -/
theorem foldlM_add_statement {entries : Entries}
    (h : (entries.map Prod.fst ++ ls.map Line.key).Nodup) :
    (ls.map Line.statement).foldlM Draft.add ⟨entries, []⟩ =
      some ⟨entries ++ ls.map Line.entry, []⟩ := by
  induction ls generalizing entries with
  | nil => simp
  | cons l ls ih =>
    have hnew : entries.lookup l.key = none := List.lookup_eq_none_iff.2 fun e he ↦ by
      have hne := (List.nodup_append.1 h).2.2 e.1 (List.mem_map_of_mem he) l.key List.mem_cons_self
      exact bne_iff_ne.2 hne.symm
    have hadd : Draft.add ⟨entries, []⟩ l.statement = some ⟨entries ++ [l.entry], []⟩ := by
      simp [Line.statement, Line.entry, Draft.add, addPair, modifyAt, hnew]
    rw [List.map_cons, List.foldlM_cons, hadd]
    refine (ih ?_).trans ?_
    · simpa [Line.entry] using h
    · rw [List.map_cons, List.append_assoc]
      rfl

/-- **Lines are read back.** The document of lines that set different keys makes their entries. -/
theorem parse?_document (h : (ls.map Line.key).Nodup) :
    parse? (document ls) = some (ls.map Line.entry) := by
  have hstatements : Scan.statementsFrom ((document ls).toList.length + 1) (document ls).toList =
      some (ls.map Line.statement, []) :=
    statementsFrom_document (Nat.lt_succ_of_le (length_le_document ls))
  have hdraft : (ls.map Line.statement).foldlM Draft.add {} = some ⟨ls.map Line.entry, []⟩ :=
    foldlM_add_statement (show (([] : Entries).map Prod.fst ++ ls.map Line.key).Nodup from h)
  rw [parse?, uniform_eq_self (uniform_document ls)]
  show (Scan.statementsFrom _ _).bind _ = _
  rw [hstatements, Option.bind_some]
  dsimp only
  rw [ofStatements?, hdraft]
  rfl

end OffsetLogic.Toml
