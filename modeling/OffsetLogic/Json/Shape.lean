import OffsetLogic.CheckedInt
import OffsetLogic.Json.Value

/-!
# Shapes of JSON values

How scalars, records and variants of a type are laid out in JSON, whatever the type.

* A **record** is an object with its fields in any order, or an array of its fields in order.
  Unknown members of an object are passed over, and a repeated field is refused.
* A **variant** is an object of one member, whose key is the name of the variant, or, for a variant
  without data, the name alone.

Readers answer `none` for a value that has not the shape.

The readers of the types are made of these few, so what is accepted beyond what is written is
settled here and once: `fields?` decides which objects and arrays are records, and `variant?` which
values are variants. A record whose fields may be absent reads `fields?`; one whose fields have to
be there reads `record?`, which refuses the same objects and, in addition, those that lack a field.
An array that is shorter than the record has its last fields absent.

Numbers are given ranges here. A document may write any integer; an offset has to be a signed word
and a count an unsigned one, and a number with a fraction or an exponent is neither, whatever its
value.
-/

namespace OffsetLogic.Json

/-- How many containers a reader of a typed value may enter, one within the other. Values that are
passed over have no limit. -/
def depthLimit : Nat := 127

/-! ### Scalars -/

/-- The text of a string. -/
def text? : Json → Option String
  | .string t => t
  | _ => none

def bool? : Json → Option Bool
  | .bool b => some b
  | _ => none

/-- A signed 64-bit integer. -/
def int64? : Json → Option Int64
  | .integer n => Int64.ofInt? n
  | _ => none

/-- A count: an unsigned integer of 64 bits. -/
def count? : Json → Option Nat
  | .integer n => if 0 ≤ n ∧ n < UInt64.size then some n.toNat else none
  | _ => none

/-- A count that may be absent. -/
def optionalCount? : Json → Option (Option Nat)
  | .null => some none
  | j => some <$> j.count?

/-! ### Containers -/

/-- The items of an array. -/
def items? : Json → Option (List Json)
  | .array js => some js
  | _ => none

/-- The members of an object all of whose keys are texts. -/
def members? : Json → Option (List (String × Json))
  | .object ms => ms.mapM fun m ↦ m.1.map (·, m.2)
  | _ => none

/-- The fields of a record by their names, in the order of `names`; an absent field is `none`. -/
def fields? (names : List String) (j : Json) : Option (List (Option Json)) :=
  match j with
  | .array js =>
    if js.length ≤ names.length then
      some (js.map some ++ List.replicate (names.length - js.length) none)
    else none
  | j => do
    let ms ← j.members?
    if names.all fun x ↦ ms.countP (·.1 == x) ≤ 1 then some (names.map fun x ↦ ms.lookup x)
    else none

/-- The fields of a record by their names, in the order of `names`, none of them absent. -/
def record? (names : List String) (j : Json) : Option (List Json) :=
  (j.fields? names).bind (·.mapM id)

/-- The name of a variant, and its data if there is any. -/
def variant? : Json → Option (String × Option Json)
  | .string (some name) => some (name, none)
  | .object [(some name, j)] => some (name, some j)
  | _ => none

/-- The value of a variant with data. -/
def tagged (name : String) (j : Json) : Json := .record [(name, j)]

end OffsetLogic.Json
