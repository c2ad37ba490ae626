import OffsetLogic.Json.Token

/-!
# JSON values

A JSON value, the tokens that write it, and the reader of tokens. Objects keep their members in the
order written, repetitions included; what a repetition means is for the reader of the object to say.

**The reader is a fold.** It keeps the containers that are still open as a stack of `Frame`s and
takes one token at a time (`State.step`), so it needs no recursion and has no limit of depth: a
reader that has one counts the containers that it enters.

That reading undoes writing is proved for tokens here (`ofTokens?_tokens`), and for texts in
`OffsetLogic.Proofs.Json.RoundTrip`, where the tokens have to be recovered from characters first.
The induction is on the value, with the open containers general, since the items of an array are
read while it is open. It comes in three parts that follow the three functions of the writer: the
tokens of a value lead from expecting a value to having one, and the tokens of further items and
members complete the container that is open. No induction on tokens is needed.
-/

namespace OffsetLogic

/-- A JSON value. -/
inductive Json where
  | null
  | bool (b : Bool)
  /-- A whole number without fraction and exponent. -/
  | integer (n : Int)
  /-- Any other number, as its text. -/
  | real (text : String)
  | string (text : Json.Text)
  | array (items : List Json)
  /-- The members in the order written. -/
  | object (members : List (Json.Text × Json))
deriving Inhabited

namespace Json

/-- The string of a text. -/
def str (s : String) : Json := .string (some s)

/-- The object of members with given names. -/
def record (members : List (String × Json)) : Json :=
  .object (members.map fun m ↦ (some m.1, m.2))

/-! ### Writing -/

mutual

/-- The tokens of a value, without blanks. -/
def tokens : Json → List Token
  | .null => [.null]
  | .bool .true => [.true]
  | .bool .false => [.false]
  | .integer n => [.integer n]
  | .real s => [.real s]
  | .string s => [.string s]
  | .array [] => [.openArray, .closeArray]
  | .array (j :: js) => .openArray :: j.tokens ++ itemTokens js
  | .object [] => [.openObject, .closeObject]
  | .object ((k, j) :: ms) =>
    .openObject :: .string k :: .colon :: j.tokens ++ memberTokens ms

/-- The tokens of the further items of an array, to its end. -/
def itemTokens : List Json → List Token
  | [] => [.closeArray]
  | j :: js => .comma :: j.tokens ++ itemTokens js

/-- The tokens of the further members of an object, to its end. -/
def memberTokens : List (Json.Text × Json) → List Token
  | [] => [.closeObject]
  | (k, j) :: ms => .comma :: .string k :: .colon :: j.tokens ++ memberTokens ms

end

/-- The compact text of a value. -/
def render (j : Json) : String := String.ofList (j.tokens.flatMap Token.text)

/-! ### Reading -/

/-- A container that is still open, with what was read of it, latest first. -/
inductive Frame where
  /-- An array that waits for an item. -/
  | array (items : List Json)
  /-- An object that waits for the value of `key`. -/
  | object (members : List (Json.Text × Json)) (key : Json.Text)

/-- What the reader of tokens expects, with the open containers, innermost first. -/
inductive State where
  /-- A value. -/
  | value (opened : List Frame)
  /-- An item or the end of the array. -/
  | firstItem (opened : List Frame)
  /-- A key or the end of the object. -/
  | firstKey (opened : List Frame)
  /-- A key, after a comma. -/
  | nextKey (members : List (Json.Text × Json)) (opened : List Frame)
  /-- A colon, after a key. -/
  | colon (members : List (Json.Text × Json)) (key : Json.Text) (opened : List Frame)
  /-- What may follow a complete value. -/
  | after (j : Json) (opened : List Frame)

namespace State

/-- A token where a value is expected. -/
def begin (opened : List Frame) : Token → Option State
  | .null => some (.after .null opened)
  | .true => some (.after (.bool Bool.true) opened)
  | .false => some (.after (.bool Bool.false) opened)
  | .integer n => some (.after (.integer n) opened)
  | .real s => some (.after (.real s) opened)
  | .string s => some (.after (.string s) opened)
  | .openArray => some (.firstItem opened)
  | .openObject => some (.firstKey opened)
  | _ => none

/-- The reader after one more token. -/
def step : State → Token → Option State
  | value fs, t => begin fs t
  | firstItem fs, .closeArray => some (after (.array []) fs)
  | firstItem fs, t => begin (.array [] :: fs) t
  | firstKey fs, .closeObject => some (after (.object []) fs)
  | firstKey fs, .string k => some (colon [] k fs)
  | nextKey ms fs, .string k => some (colon ms k fs)
  | colon ms k fs, .colon => some (value (.object ms k :: fs))
  | after j (.array js :: fs), .comma => some (value (.array (j :: js) :: fs))
  | after j (.array js :: fs), .closeArray => some (after (.array (j :: js).reverse) fs)
  | after j (.object ms k :: fs), .comma => some (nextKey ((k, j) :: ms) fs)
  | after j (.object ms k :: fs), .closeObject => some (after (.object ((k, j) :: ms).reverse) fs)
  | _, _ => none

/-- The value that was read, if it is complete and nothing is open. -/
def result? : State → Option Json
  | after j [] => some j
  | _ => none

end State

/-- The value that a list of tokens writes. -/
def ofTokens? (ts : List Token) : Option Json :=
  (ts.foldlM State.step (.value [])).bind State.result?

/-- The value that a text writes. -/
def parse? (s : String) : Option Json := (Token.lex s.toList).bind ofTokens?

/-! ### Reading undoes writing -/

/-- After an opening bracket, a value is read as the first item. -/
theorem foldlM_step_firstItem (j : Json) (fs : List Frame) :
    j.tokens.foldlM State.step (.firstItem fs)
      = j.tokens.foldlM State.step (.value (.array [] :: fs)) := by
  cases j with
  | bool b => cases b <;> rfl
  | array js => cases js <;> rfl
  | object ms => cases ms <;> rfl
  | _ => rfl

mutual

/-- The reader takes the tokens of a value for that value, whatever is open. -/
theorem foldlM_step_tokens : ∀ (j : Json) (fs : List Frame),
    j.tokens.foldlM State.step (.value fs) = some (.after j fs)
  | .null, _ | .bool .true, _ | .bool .false, _ | .integer _, _ | .real _, _ | .string _, _
  | .array [], _ | .object [], _ => rfl
  | .array (j :: js), fs => by
    show (j.tokens ++ itemTokens js).foldlM State.step (.firstItem fs) = _
    rw [List.foldlM_append, foldlM_step_firstItem, foldlM_step_tokens j]
    exact foldlM_step_itemTokens js j [] fs
  | .object ((k, j) :: ms), fs => by
    show (j.tokens ++ memberTokens ms).foldlM State.step (.value (.object [] k :: fs)) = _
    rw [List.foldlM_append, foldlM_step_tokens j]
    exact foldlM_step_memberTokens ms j [] k fs

/-- The reader takes the tokens of further items for the rest of the array. -/
theorem foldlM_step_itemTokens : ∀ (js : List Json) (i : Json) (is : List Json) (fs : List Frame),
    (itemTokens js).foldlM State.step (.after i (.array is :: fs))
      = some (.after (.array (is.reverse ++ i :: js)) fs)
  | [], i, is, fs => by simp [itemTokens, State.step]
  | j :: js, i, is, fs => by
    show (j.tokens ++ itemTokens js).foldlM State.step (.value (.array (i :: is) :: fs)) = _
    rw [List.foldlM_append, foldlM_step_tokens j]
    simpa using foldlM_step_itemTokens js j (i :: is) fs

/-- The reader takes the tokens of further members for the rest of the object. -/
theorem foldlM_step_memberTokens : ∀ (ms : List (Json.Text × Json)) (i : Json)
    (is : List (Json.Text × Json)) (k : Json.Text) (fs : List Frame),
    (memberTokens ms).foldlM State.step (.after i (.object is k :: fs))
      = some (.after (.object (is.reverse ++ (k, i) :: ms)) fs)
  | [], i, is, k, fs => by simp [memberTokens, State.step]
  | (l, j) :: ms, i, is, k, fs => by
    show (j.tokens ++ memberTokens ms).foldlM State.step
      (.value (.object ((k, i) :: is) l :: fs)) = _
    rw [List.foldlM_append, foldlM_step_tokens j]
    simpa using foldlM_step_memberTokens ms j ((k, i) :: is) l fs

end

/-- Reading the tokens of a value gives the value. -/
theorem ofTokens?_tokens (j : Json) : ofTokens? j.tokens = some j := by
  rw [ofTokens?, foldlM_step_tokens]
  rfl

end Json

end OffsetLogic
