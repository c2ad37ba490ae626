/-!
# TOML documents

What a TOML text says is a list of statements: a value for a key, the header of a table, the header
of one more element of an array of tables. A document is built from them one by one, and most of the
rules of the format are about what may be said twice.

Tables come about in four ways, and their `TableKind` remembers it. A table that has its own header,
or was written inline, is complete and cannot be defined again. A table that was only passed through
on the way to another is open: one passed through by a header (`implied`) may still get a header of
its own, one made by a dotted key (`dotted`) may get further dotted keys.

**One function walks every path.** `modifyAt` goes down the keys of a path, makes the tables that
are missing, takes the last element of an array of tables, and changes the table at the end; which
kind of path it is decides what is made and what may be passed through (`passes`). The statements
differ in what they do at the end: `addPair` adds a value, `addHeader` adds a table or completes one
that was implied, `addElement` adds one more element. Inline tables are built by the same `addPair`,
with nothing around them.

The entries of a table keep the order of their first mention, and a lookup takes the first entry of
a name; that there is one only is kept by the functions here, which refuse to say anything twice.
-/

namespace OffsetLogic.Toml

/-- How a table came about. -/
inductive TableKind where
  /-- By its own header; also the table of the whole document. -/
  | header
  /-- As a part of the path of a header. -/
  | implied
  /-- As a part of a dotted key. -/
  | dotted
  /-- As an inline value. -/
  | inline
deriving DecidableEq, Inhabited

/-- What a key stands for. -/
inductive Node where
  | string (s : String)
  | integer (n : Int64)
  | boolean (b : Bool)
  /-- A float, as its text. -/
  | float (text : String)
  /-- A date, a time, or both, as its text. -/
  | moment (text : String)
  | array (items : List Node)
  /-- A table with its entries in the order of their first mention. -/
  | table (kind : TableKind) (entries : List (String × Node))
  /-- An array of tables, each with its entries. -/
  | tables (items : List (List (String × Node)))
deriving Inhabited

/-- The entries of a table. -/
abbrev Entries : Type := List (String × Node)

/-- A statement of a document. -/
inductive Statement where
  /-- A value for a dotted key, which is the path to a table and a key in it. -/
  | pair (path : List String) (key : String) (value : Node)
  /-- The header of the table `key` in the table at `path`. -/
  | header (path : List String) (key : String)
  /-- The header of a new element of the array of tables `key` in the table at `path`. -/
  | element (path : List String) (key : String)

/-- The entries with the value of `key` replaced. -/
def replaceEntry (key : String) (value : Node) (entries : Entries) : Entries :=
  entries.map fun e ↦ if e.1 = key then (key, value) else e

/-- The kinds of tables that a path goes through, when it is the path of a header (`implied`) or
of a dotted key. -/
def passes (maker kind : TableKind) : Bool :=
  match kind with
  | .header => maker = .implied
  | .implied | .dotted => true
  | .inline => false

/-- The entries with the table at the end of a path changed by `f`. Tables on the path that do not
exist are made, of the kind `maker`; of an array of tables the last element is taken. -/
def modifyAt (maker : TableKind) (f : TableKind → Entries → Option Entries) :
    List String → TableKind → Entries → Option Entries
  | [], kind, entries => f kind entries
  | key :: path, _, entries =>
    match entries.lookup key with
    | none => do
      let made ← modifyAt maker f path maker []
      return entries ++ [(key, .table maker made)]
    | some (.table kind inner) =>
      if passes maker kind then do
        let changed ← modifyAt maker f path kind inner
        return replaceEntry key (.table kind changed) entries
      else none
    | some (.tables items) =>
      match items.reverse with
      | [] => none
      | last :: before => do
        let changed ← modifyAt maker f path .header last
        return replaceEntry key (.tables (changed :: before).reverse) entries
    | some _ => none

/-- The entries of a table of some kind with a value for a dotted key. A key has one value, and a
dotted key cannot add to a table that was defined otherwise. -/
def addPair (path : List String) (key : String) (value : Node) (kind : TableKind)
    (entries : Entries) : Option Entries :=
  modifyAt .dotted
    (fun kind entries ↦
      if (kind = .dotted) = path.isEmpty then none
      else if (entries.lookup key).isSome then none
      else some (entries ++ [(key, value)]))
    path kind entries

/-- The entries with the header of the table `key`. -/
def addHeader (key : String) (_ : TableKind) (entries : Entries) : Option Entries :=
  match entries.lookup key with
  | none => some (entries ++ [(key, .table .header [])])
  | some (.table .implied inner) => some (replaceEntry key (.table .header inner) entries)
  | some _ => none

/-- The entries with one more element of the array of tables `key`. -/
def addElement (key : String) (_ : TableKind) (entries : Entries) : Option Entries :=
  match entries.lookup key with
  | none => some (entries ++ [(key, .tables [[]])])
  | some (.tables items) => some (replaceEntry key (.tables (items ++ [[]])) entries)
  | some _ => none

/-- A document under construction. -/
structure Draft where
  /-- The entries of the whole document. -/
  root : Entries := []
  /-- The path of the latest header. -/
  current : List String := []

/-- The draft with one more statement. -/
def Draft.add (d : Draft) : Statement → Option Draft
  | .pair path key value => do
    return { d with root := ← modifyAt .implied (addPair path key value) d.current .header d.root }
  | .header path key => do
    return { root := ← modifyAt .implied (addHeader key) path .header d.root,
             current := path ++ [key] }
  | .element path key => do
    return { root := ← modifyAt .implied (addElement key) path .header d.root,
             current := path ++ [key] }

/-- The entries of the document that a list of statements makes. -/
def ofStatements? (statements : List Statement) : Option Entries :=
  (statements.foldlM Draft.add {}).map (·.root)

/-- The entries of an inline table with given keys and values. -/
def inlineEntries? (pairs : List (List String × String × Node)) : Option Entries :=
  pairs.foldlM (fun entries p ↦ addPair p.1 p.2.1 p.2.2 .inline entries) []

end OffsetLogic.Toml
