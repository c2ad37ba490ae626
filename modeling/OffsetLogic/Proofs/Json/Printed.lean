import OffsetLogic.Json.Value
import OffsetLogic.Proofs.Text.Decimal

/-!
# Printed JSON is read back

The compact text of a value has no blanks, and the reader finds its tokens by where they end:
punctuation is one character, a string ends at the first quote that no backslash escapes, and a
**word ends where punctuation follows**, which among the tokens of a value it always does.

What stands between the quotes is undone character by character, and no character is half of a
surrogate pair. What a word says is settled by how it begins: only a number begins with a digit or a
minus, its digits are those of its value, and there is no superfluous zero among them.

A number that is kept as its text need not be a number, and a string that stands for no text is
written like the empty one, so values with these are left out (`Json.Exact`). All others are read
back from what they are written as (`Json.parse?_render`).

## The rest of the text is general

Each lemma about a token says what the reader does with its text **followed by any rest**, and ends
with the same reader on that rest. Otherwise nothing could be put together: the reader has no notion
of the end of a token but what comes after it. For words the rest has to begin with punctuation, or
be nothing (`Delimited`), and for the others there is no condition; that is the whole difference
between the two kinds of token.

`Lexed` is this property for lists of tokens, and is what goes through the structure of a value. A
list that is lexed can be put before another one when the text of the other begins with punctuation
(`Lexed.append`). The tokens of further items and members do begin so, with a comma or a closing
bracket (`delimited_itemTokens`, `delimited_memberTokens`), and there is no other place in a value
where a word could be followed by something else.
-/

namespace OffsetLogic.Json

open Decimal

/-! ### Quoted strings -/

namespace Quoted

variable {c : Char} {cs : List Char}

/-- A character is no half of a surrogate pair. -/
theorem not_surrogate_toNat (c : Char) :
    isHighSurrogate c.toNat = false ∧ isLowSurrogate c.toNat = false := by
  have hvalid : c.toNat < 0xD800 ∨ 0xDFFF < c.toNat ∧ c.toNat < 0x110000 := c.valid
  rw [isHighSurrogate, isLowSurrogate, Bool.and_eq_false_iff, Bool.and_eq_false_iff,
    decide_eq_false_iff_not, decide_eq_false_iff_not, decide_eq_false_iff_not,
    decide_eq_false_iff_not]
  omega

/-- A character is escaped by a character of its own, or as a control character, or not at all. -/
theorem escapeChar_cases (c : Char) :
    (∃ e, escapeChar c = ['\\', e] ∧ e ≠ 'u' ∧ shortEscape? e = some c) ∨
    (escapeChar c = ['\\', 'u', '0', '0', Nat.digitChar (c.toNat / 16),
      Nat.digitChar (c.toNat % 16)] ∧ c.toNat < 0x20) ∨
    escapeChar c = [c] ∧ ¬ c.toNat < 0x20 ∧ c ≠ '\\' ∧ c ≠ '"' := by
  rcases eq_or_ne c '"' with rfl | hquote
  · exact .inl ⟨'"', rfl, by decide, rfl⟩
  rcases eq_or_ne c '\\' with rfl | hslash
  · exact .inl ⟨'\\', rfl, by decide, rfl⟩
  rcases eq_or_ne c '\x08' with rfl | hb
  · exact .inl ⟨'b', rfl, by decide, rfl⟩
  rcases eq_or_ne c '\x0c' with rfl | hf
  · exact .inl ⟨'f', rfl, by decide, rfl⟩
  rcases eq_or_ne c '\n' with rfl | hn
  · exact .inl ⟨'n', rfl, by decide, rfl⟩
  rcases eq_or_ne c '\r' with rfl | hr
  · exact .inl ⟨'r', rfl, by decide, rfl⟩
  rcases eq_or_ne c '\t' with rfl | ht
  · exact .inl ⟨'t', rfl, by decide, rfl⟩
  rw [escapeChar, if_neg hquote, if_neg hslash, if_neg hb, if_neg hf, if_neg hn, if_neg hr,
    if_neg ht]
  split
  · rename_i hcontrol
    exact .inr (.inl ⟨rfl, hcontrol⟩)
  · rename_i hcontrol
    exact .inr (.inr ⟨rfl, hcontrol, hslash, hquote⟩)

/-- The code points of characters stand for the characters. -/
theorem assemble_map_toNat (cs : List Char) : assemble (cs.map Char.toNat) = some cs := by
  induction cs with
  | nil => rfl
  | cons c cs ih =>
    obtain ⟨hhigh, hlow⟩ := not_surrogate_toNat c
    cases cs with
    | nil => simp [assemble, hhigh, hlow]
    | cons d cs =>
      rw [List.map_cons, List.map_cons, assemble, hhigh, hlow]
      rw [List.map_cons] at ih
      simp [ih]

/-- The last two digits that are written for a control character are the hexadecimal digits of its
code. -/
theorem number?_control {n : Nat} (hn : n < 0x20) :
    Hex.number? ['0', '0', Nat.digitChar (n / 16), Nat.digitChar (n % 16)] = some n := by
  revert n
  decide

theorem unescape_short {e : Char} (he : e ≠ 'u') (hc : shortEscape? e = some c) :
    unescape ('\\' :: e :: cs) = (unescape cs).map (c.toNat :: ·) := by
  rw [unescape, hc]
  · cases unescape cs <;> rfl
  · exact fun _ _ _ _ _ h ↦ absurd h he

theorem unescape_unicode {a b d e : Char} {n : Nat} (hn : Hex.number? [a, b, d, e] = some n) :
    unescape ('\\' :: 'u' :: a :: b :: d :: e :: cs) = (unescape cs).map (n :: ·) := by
  rw [unescape, hn]
  cases unescape cs <;> rfl

/-- A character that was not escaped stands for itself. -/
theorem unescape_plain (hcontrol : ¬ c.toNat < 0x20) (hc : c ≠ '\\') :
    unescape (c :: cs) = (unescape cs).map (c.toNat :: ·) := by
  rw [unescape, if_neg (not_or.2 ⟨hcontrol, hc⟩)]
  · cases unescape cs <;> rfl
  · exact fun _ _ _ _ _ h ↦ absurd h hc
  · exact fun _ _ h ↦ absurd h hc

/-- A character is read from its escape. -/
theorem unescape_escapeChar (c : Char) (cs : List Char) :
    unescape (escapeChar c ++ cs) = (unescape cs).map (c.toNat :: ·) := by
  obtain ⟨e, hesc, he, hshort⟩ | ⟨hesc, hcontrol⟩ | ⟨hesc, hcontrol, hslash, -⟩ :=
    escapeChar_cases c
  · exact hesc ▸ unescape_short he hshort
  · exact hesc ▸ unescape_unicode (number?_control hcontrol)
  · exact hesc ▸ unescape_plain hcontrol hslash

/-- What is written between quotes is what is read there. -/
theorem decode_escape (cs : List Char) : decode (escape cs) = some (some (String.ofList cs)) := by
  have hunits : unescape (escape cs) = some (cs.map Char.toNat) := by
    induction cs with
    | nil => rfl
    | cons c cs ih => rw [escape, List.flatMap_cons, unescape_escapeChar, ← escape, ih]; rfl
  rw [decode, hunits, Option.map_some, assemble_map_toNat]
  rfl

end Quoted

/-! ### Words -/

namespace Token

variable {c : Char} {cs w rest : List Char} {t : Token} {ts us : List Token}

/-- The digits of a number have no superfluous zero. -/
theorem isCanonical_toDigits (n : Nat) : isCanonical (Nat.toDigits 10 n) = .true := by
  rcases Nat.eq_zero_or_pos n with rfl | hn
  · rfl
  · obtain ⟨c, cs, hcs, hc⟩ := exists_toDigits_eq_cons hn
    rw [hcs]
    simp [isCanonical, hc]

/-- Digits are read as the number that they write. -/
theorem ofNumber?_toDigits (n : Nat) : ofNumber? (Nat.toDigits 10 n) = some (.integer n) := by
  rw [ofNumber?]
  · simp [takeWhile_toDigits, isCanonical_toDigits]
  · intro cs hcs
    have hminus : '-' ∈ Nat.toDigits 10 n := hcs ▸ List.mem_cons_self
    exact absurd (isDigit_of_mem_toDigits hminus) (by decide)

/-- Digits after a minus are read as the opposite of the number that they write. -/
theorem ofNumber?_minus_toDigits {n : Nat} (hn : 0 < n) :
    ofNumber? ('-' :: Nat.toDigits 10 n) = some (.integer (-n)) := by
  have hzero : Nat.toDigits 10 n ≠ ['0'] := by
    obtain ⟨c, cs, hcs, hc⟩ := exists_toDigits_eq_cons hn
    rw [hcs]
    exact fun h ↦ hc (List.cons.inj h).1
  simp [ofNumber?, takeWhile_toDigits, isCanonical_toDigits, hzero]

/-- Words that begin with a digit or a minus are numbers. -/
theorem ofWord?_eq_ofNumber? (hc : c.isDigit = .true ∨ c = '-') :
    ofWord? (c :: cs) = ofNumber? (c :: cs) := by
  have hname : ∀ {w : String}, (w.toList.all fun d ↦ !d.isDigit && d != '-') = .true →
      c :: cs ≠ w.toList := by
    intro w hw heq
    have hchar := List.all_eq_true.1 hw c (heq ▸ List.mem_cons_self)
    rcases hc with hc | rfl
    · simp [hc] at hchar
    · cases hchar
  rw [ofWord?, if_neg (hname (by decide)), if_neg (hname (by decide)), if_neg (hname (by decide))]

/-- A number is read from its text. -/
theorem ofWord?_toString (n : Int) : ofWord? (toString n).toList = some (.integer n) := by
  obtain ⟨m, rfl, hm⟩ | ⟨m, hpos, rfl, hm⟩ := toList_toString_cases n
  · obtain ⟨c, cs, hcs⟩ := List.exists_cons_of_ne_nil (Nat.toDigits_ne_nil (n := m) (b := 10))
    have hc : c.isDigit = .true := isDigit_of_mem_toDigits (hcs ▸ List.mem_cons_self)
    rw [hm, hcs, ofWord?_eq_ofNumber? (.inl hc), ← hcs, ofNumber?_toDigits]
  · rw [hm, ofWord?_eq_ofNumber? (.inr rfl), ofNumber?_minus_toDigits hpos]

/-! ### Tokens -/

/-- Tokens of more than one character that no quotes enclose. -/
def isWord : Token → Bool
  | null | true | false | integer _ | real _ => .true
  | _ => .false

/-- Tokens that are read back from their text, if no word follows a word. -/
def IsExact : Token → Prop
  | real _ | string none => False
  | _ => True

/-- Characters that can stand in a word. -/
def isWordChar (c : Char) : Bool := !isBlank c && c != '"' && (ofPunctuation? c).isNone

/-- What can follow a word: nothing, or punctuation. -/
def Delimited (cs : List Char) : Prop := ∀ c ∈ cs.head?, (ofPunctuation? c).isSome = .true

/-- A character can stand in a word when it ends none: it is no blank, no quote and no punctuation.
-/
theorem isWordChar_iff :
    isWordChar c = .true ↔ isBlank c = .false ∧ c ≠ '"' ∧ ofPunctuation? c = none := by
  simp [isWordChar, and_assoc]

/-- Punctuation is no blank and no quote. -/
theorem of_ofPunctuation?_eq_some (h : ofPunctuation? c = some t) :
    isBlank c = .false ∧ c ≠ '"' := by
  unfold ofPunctuation? at h
  split at h
  all_goals first | decide | cases h

theorem isWordChar_of_isDigit (hc : c.isDigit = .true) : isWordChar c = .true := by
  have hne : ∀ d : Char, d.isDigit = .false → c ≠ d := by
    rintro d hd rfl
    cases hc.symm.trans hd
  refine isWordChar_iff.2 ⟨?_, hne _ (by decide), ?_⟩
  · simp [isBlank, hne]
  · unfold ofPunctuation?
    split
    all_goals first | rfl | cases hc

/-- Within a word, the reader collects the characters of the word. -/
theorem lexFrom_word (hcs : ∀ c ∈ cs, isWordChar c = .true) :
    lexFrom (.word w) (cs ++ rest) = lexFrom (.word (cs.reverse ++ w)) rest := by
  induction cs generalizing w with
  | nil => rfl
  | cons c cs ih =>
    obtain ⟨hblank, hquote, hpunct⟩ := isWordChar_iff.1 (hcs c List.mem_cons_self)
    rw [List.cons_append, lexFrom, hblank, if_neg Bool.false_ne_true, if_neg hquote, hpunct,
      List.reverse_cons, List.append_assoc]
    exact ih fun d hd ↦ hcs d (List.mem_cons_of_mem c hd)

/-- Punctuation is a token by itself, whatever follows. -/
theorem lex_punctuation (h : ofPunctuation? c = some t) :
    lex (c :: rest) = (lex rest).map (t :: ·) := by
  obtain ⟨hblank, hquote⟩ := of_ofPunctuation?_eq_some h
  rw [lex, lexFrom, hblank, if_neg Bool.false_ne_true, if_neg hquote, h, lex]
  cases lexFrom .between rest <;> rfl

/-- A word ends where punctuation follows. -/
theorem lexFrom_word_of_delimited (hrest : Delimited rest) :
    lexFrom (.word w) rest = (ofWord? w.reverse).bind fun t ↦ (lex rest).map (t :: ·) := by
  cases rest with
  | nil => rw [lexFrom]; cases ofWord? w.reverse <;> rfl
  | cons c cs =>
    obtain ⟨t, ht⟩ := Option.isSome_iff_exists.1 (hrest c rfl)
    obtain ⟨hblank, hquote⟩ := of_ofPunctuation?_eq_some ht
    rw [lex_punctuation ht, lexFrom, hblank, if_neg Bool.false_ne_true, if_neg hquote, ht, lex]
    cases ofWord? w.reverse
    · rfl
    · cases lexFrom .between cs <;> rfl

/-- A word is read as its token when punctuation follows, or nothing. -/
theorem lex_word (hcs : ∀ c ∈ cs, isWordChar c = .true) (ht : ofWord? cs = some t)
    (hrest : Delimited rest) : lex (cs ++ rest) = (lex rest).map (t :: ·) := by
  cases cs with
  | nil => cases ht
  | cons c cs =>
    obtain ⟨hblank, hquote, hpunct⟩ := isWordChar_iff.1 (hcs c List.mem_cons_self)
    rw [List.cons_append, lex, lexFrom, hblank, if_neg Bool.false_ne_true, if_neg hquote, hpunct,
      lexFrom_word fun d hd ↦ hcs d (List.mem_cons_of_mem c hd), lexFrom_word_of_delimited hrest,
      List.reverse_append, List.reverse_reverse]
    show (ofWord? (c :: cs)).bind _ = _
    rw [ht]
    rfl

/-- Within a string, the reader collects a character that is no quote and no backslash. -/
theorem lexFrom_quoted (hquote : c ≠ '"') (hslash : c ≠ '\\') :
    lexFrom (.quoted w) (c :: cs) = lexFrom (.quoted (c :: w)) cs := by
  rw [lexFrom, if_neg hquote, if_neg hslash]

/-- Within a string, a backslash and the character after it are collected together, so an escaped
quote ends nothing. -/
theorem lexFrom_quoted_slash :
    lexFrom (.quoted w) ('\\' :: c :: cs) = lexFrom (.quoted (c :: '\\' :: w)) cs := by
  rw [lexFrom, if_neg (by decide), if_pos rfl, lexFrom]

/-- Hexadecimal digits are neither quotes nor backslashes. -/
theorem digitChar_ne {n : Nat} (hn : n < 16) :
    Nat.digitChar n ≠ '"' ∧ Nat.digitChar n ≠ '\\' := by
  revert n
  decide

/-- The quote that ends a string is none of the characters of an escape. -/
theorem lexFrom_escapeChar (c : Char) :
    lexFrom (.quoted w) (Quoted.escapeChar c ++ rest) =
      lexFrom (.quoted ((Quoted.escapeChar c).reverse ++ w)) rest := by
  obtain ⟨e, hesc, -⟩ | ⟨hesc, hcontrol⟩ | ⟨hesc, -, hslash, hquote⟩ := Quoted.escapeChar_cases c
  · rw [hesc]
    exact lexFrom_quoted_slash
  · obtain ⟨h₁, h₁'⟩ := digitChar_ne (n := c.toNat / 16) (by omega)
    obtain ⟨h₂, h₂'⟩ := digitChar_ne (n := c.toNat % 16) (by omega)
    rw [hesc]
    show lexFrom (.quoted w) ('\\' :: 'u' :: '0' :: '0' :: _ :: _ :: rest) = _
    rw [lexFrom_quoted_slash, lexFrom_quoted (by decide) (by decide),
      lexFrom_quoted (by decide) (by decide), lexFrom_quoted h₁ h₁', lexFrom_quoted h₂ h₂']
    rfl
  · rw [hesc]
    exact lexFrom_quoted hquote hslash

/-- The reader collects the whole text between the quotes, as it was escaped. -/
theorem lexFrom_escape (cs : List Char) :
    lexFrom (.quoted w) (Quoted.escape cs ++ rest) =
      lexFrom (.quoted ((Quoted.escape cs).reverse ++ w)) rest := by
  induction cs generalizing w with
  | nil => rfl
  | cons c cs ih =>
    rw [Quoted.escape, List.flatMap_cons, List.append_assoc, lexFrom_escapeChar, ← Quoted.escape,
      ih, List.reverse_append, List.append_assoc]

/-- A string is read back from its text, whatever follows. -/
theorem lex_string (s : String) :
    lex ((string (some s)).text ++ rest) = (lex rest).map (string (some s) :: ·) := by
  show lexFrom .between ('"' :: Quoted.escape s.toList ++ ['"'] ++ rest) = _
  rw [List.append_assoc, List.cons_append, lexFrom, if_neg (by decide), if_pos rfl, lexFrom_escape,
    List.append_nil, List.singleton_append, lexFrom, if_pos rfl, List.reverse_reverse,
    Quoted.decode_escape, String.ofList_toList, lex]
  cases lexFrom .between rest <;> rfl

/-- A token is read from its text, if punctuation follows when it is a word. -/
theorem lex_text (ht : t.IsExact) (hrest : t.isWord = .true → Delimited rest) :
    lex (t.text ++ rest) = (lex rest).map (t :: ·) := by
  cases t with
  | openArray | closeArray | openObject | closeObject | comma | colon => exact lex_punctuation rfl
  | null | true | false =>
    exact lex_word (List.all_eq_true.1 (by decide)) (by decide) (hrest rfl)
  | integer n =>
    refine lex_word (fun c hc ↦ ?_) (ofWord?_toString n) (hrest rfl)
    rcases of_mem_toString hc with hc | rfl
    · exact isWordChar_of_isDigit hc
    · decide
  | real s => cases ht
  | string s =>
    cases s with
    | none => cases ht
    | some s => exact lex_string s

/-- Tokens that are read back from their text, wherever punctuation follows. -/
def Lexed (ts : List Token) : Prop :=
  ∀ rest, Delimited rest → lex (ts.flatMap text ++ rest) = (lex rest).map (ts ++ ·)

theorem lexed_singleton (ht : t.IsExact) : Lexed [t] := by
  intro rest hrest
  rw [List.flatMap_singleton]
  exact lex_text ht fun _ ↦ hrest

/-- A token that is not a word can stand before any others. -/
theorem Lexed.cons (ht : t.IsExact) (hword : t.isWord = .false) (hts : Lexed ts) :
    Lexed (t :: ts) := by
  intro rest hrest
  have hrest' : t.isWord = .true → Delimited (ts.flatMap text ++ rest) := by
    rw [hword]
    exact nofun
  rw [List.flatMap_cons, List.append_assoc, lex_text ht hrest', hts rest hrest, Option.map_map]
  rfl

/-- Any tokens can stand before those that begin with punctuation. -/
theorem Lexed.append (hts : Lexed ts) (hus : Lexed us)
    (hdelim : ∀ rest, Delimited (us.flatMap text ++ rest)) : Lexed (ts ++ us) := by
  intro rest hrest
  rw [List.flatMap_append, List.append_assoc, hts _ (hdelim rest), hus rest hrest, Option.map_map]
  simp only [Function.comp_def, List.append_assoc]

/-- A member of an object begins with its key. -/
theorem Lexed.member (hts : Lexed ts) (x : String) :
    Lexed (string (some x) :: colon :: ts) :=
  .cons (t := string (some x)) trivial rfl (.cons (t := colon) trivial rfl hts)

end Token

/-! ### Values -/

/-- Values that are read back from their text: without numbers that are kept as their text, and
without strings that stand for no text. -/
inductive Exact : Json → Prop where
  | null : Exact .null
  | bool (b : Bool) : Exact (.bool b)
  | integer (n : Int) : Exact (.integer n)
  | str (s : String) : Exact (str s)
  | array {js : List Json} : (∀ j ∈ js, Exact j) → Exact (.array js)
  | record {ms : List (String × Json)} : (∀ m ∈ ms, Exact m.2) → Exact (record ms)

section

open Token

/-- After an item, punctuation follows: a comma, or the end of the array. -/
theorem delimited_itemTokens (js : List Json) (rest : List Char) :
    Delimited ((itemTokens js).flatMap text ++ rest) := by
  cases js <;> exact fun c hc ↦ by cases hc; rfl

theorem delimited_memberTokens (ms : List (Json.Text × Json)) (rest : List Char) :
    Delimited ((memberTokens ms).flatMap text ++ rest) := by
  cases ms <;> exact fun c hc ↦ by cases hc; rfl

/-- Further items are read back when each of them is. -/
theorem lexed_itemTokens {js : List Json} (h : ∀ j ∈ js, Lexed j.tokens) :
    Lexed (itemTokens js) := by
  induction js with
  | nil => exact lexed_singleton (t := .closeArray) trivial
  | cons j js ih =>
    have hjs := ih fun i hi ↦ h i (List.mem_cons_of_mem j hi)
    have hj := (h j List.mem_cons_self).append hjs (delimited_itemTokens js)
    exact hj.cons (t := .comma) trivial rfl

theorem lexed_memberTokens {ms : List (String × Json)} (h : ∀ m ∈ ms, Lexed m.2.tokens) :
    Lexed (memberTokens (ms.map fun m ↦ (some m.1, m.2))) := by
  induction ms with
  | nil => exact lexed_singleton (t := .closeObject) trivial
  | cons m ms ih =>
    have hms := ih fun i hi ↦ h i (List.mem_cons_of_mem m hi)
    have hm := (h m List.mem_cons_self).append hms (delimited_memberTokens _)
    exact (hm.member m.1).cons (t := .comma) trivial rfl

/-- The tokens of a value are read back from its text. -/
theorem Exact.lexed {j : Json} (h : j.Exact) : Lexed j.tokens := by
  induction h with
  | null => exact lexed_singleton (t := .null) trivial
  | bool b =>
    cases b
    · exact lexed_singleton (t := .false) trivial
    · exact lexed_singleton (t := .true) trivial
  | integer n => exact lexed_singleton (t := .integer n) trivial
  | str s => exact lexed_singleton (t := .string (some s)) trivial
  | @array js _ ih =>
    cases js with
    | nil => exact (lexed_singleton (t := .closeArray) trivial).cons (t := .openArray) trivial rfl
    | cons j js =>
      have hjs := lexed_itemTokens fun i hi ↦ ih i (List.mem_cons_of_mem j hi)
      have hj := (ih j List.mem_cons_self).append hjs (delimited_itemTokens js)
      exact hj.cons (t := .openArray) trivial rfl
  | @record ms _ ih =>
    cases ms with
    | nil => exact (lexed_singleton (t := .closeObject) trivial).cons (t := .openObject) trivial rfl
    | cons m ms =>
      have hms := lexed_memberTokens fun i hi ↦ ih i (List.mem_cons_of_mem m hi)
      have hm := (ih m List.mem_cons_self).append hms (delimited_memberTokens _)
      exact (hm.member m.1).cons (t := .openObject) trivial rfl

end

/-- **A value is read back from its text.** -/
theorem parse?_render {j : Json} (h : j.Exact) : parse? j.render = some j := by
  have hlex := h.lexed [] fun c hc ↦ nomatch hc
  rw [List.append_nil] at hlex
  rw [parse?, render, String.toList_ofList, hlex]
  show ofTokens? (j.tokens ++ []) = some j
  rw [List.append_nil, ofTokens?_tokens]

end OffsetLogic.Json
