import Injection.Value

/-!
# Tables of a TOML document

A document is a sequence of sections, each with a header and pairs of a dotted key and a value. The
sections are filed one after the other in a tree of tables. A table may be defined once: by a
header, or by the dotted keys of one section; a table that only headers of tables within it have
implied may still get a header of its own.

## Main definitions

* `Toml.Section` — a header with its pairs.
* `Toml.Item`, `Toml.Item.toValue` — what a tree holds under a key, as a value.
* `Toml.assign` — files a value under a dotted key.
* `Toml.fileSection`, `Toml.fileSections` — file sections.
-/

namespace Injection.Toml

/-- How a table came to be. -/
inductive Origin where
  /-- By its own header, or as the document itself. -/
  | header
  /-- By the header of a table within it. -/
  | implied
  /-- By a dotted key. -/
  | dotted
deriving DecidableEq, Inhabited

/-- What a tree holds under a key. -/
inductive Item where
  | value (value : Value)
  | table (origin : Origin) (entries : List (String × Item))
  /-- Tables under one header that is repeated. -/
  | series (tables : List (List (String × Item)))
deriving Inhabited

/-- What a table holds. -/
abbrev Entries := List (String × Item)

/-- A header with the pairs below it. -/
structure Section where
  /-- The path in the header, empty for the pairs above the first header. -/
  path : List String
  /-- Whether the header adds a table to a series. -/
  repeated : Bool
  pairs : List (List String × Value)
deriving Inhabited

mutual

def Item.toValue : Item → Value
  | .value value => value
  | .table _ entries => .object (fieldsOf entries)
  | .series tables => .list (listOf tables)

/-- What a table holds, as fields of an object. -/
def fieldsOf : List (String × Item) → List (String × Value)
  | [] => []
  | (key, item) :: rest => (key, item.toValue) :: fieldsOf rest

/-- The tables of a series, as objects. -/
def listOf : List (List (String × Item)) → List Value
  | [] => []
  | entries :: rest => .object (fieldsOf entries) :: listOf rest

end

/-- The entries with an item under a key, in place of what was there. -/
def put (key : String) (item : Item) : Entries → Entries
  | [] => [(key, item)]
  | (k, i) :: rest => if k = key then (key, item) :: rest else (k, i) :: put key item rest

/-- Files a value under a dotted key in a table. Tables on the way are made where they are missing,
and may not have a header of their own. The table that takes the value is defined by dotted keys
exactly if the key has more than one part, `deep` telling whether parts have been used. -/
def assign (value : Value) (origin : Origin) (deep : Bool) : List String → Entries → Option Entries
  | [], _ => none
  | [key], entries =>
    if (origin == .dotted) != deep || (entries.lookup key).isSome then none
    else some (put key (.value value) entries)
  | key :: rest, entries =>
    match entries.lookup key with
    | none => do
      let inner ← assign value .dotted true rest []
      return put key (.table .dotted inner) entries
    | some (.value _) => none
    | some (.table .header _) => none
    | some (.table origin inner) => do
      let inner ← assign value origin true rest inner
      return put key (.table origin inner) entries
    | some (.series tables) => do
      let inner ← assign value .header true rest (tables.getLast?.getD [])
      return put key (.series (tables.dropLast ++ [inner])) entries

/-- Files pairs in a table that has or gets a header. -/
def assignAll (pairs : List (List String × Value)) (entries : Entries) : Option Entries :=
  pairs.foldlM (fun entries (key, value) => assign value .header false key entries) entries

/-- Changes the table at a path. Tables on the way are implied where they are missing; of a series
the last table counts. -/
def change (edit : Entries → Option Entries) : List String → Entries → Option Entries
  | [], entries => edit entries
  | key :: rest, entries =>
    match entries.lookup key with
    | none => do
      let inner ← change edit rest []
      return put key (.table .implied inner) entries
    | some (.value _) => none
    | some (.table origin inner) => do
      let inner ← change edit rest inner
      return put key (.table origin inner) entries
    | some (.series tables) => do
      let inner ← change edit rest (tables.getLast?.getD [])
      return put key (.series (tables.dropLast ++ [inner])) entries

/-- Files the pairs below the header of a table. -/
def define (key : String) (pairs : List (List String × Value)) (entries : Entries) :
    Option Entries := do
  let old ←
    match entries.lookup key with
    | none => some []
    | some (.table .implied old) => some old
    | some _ => none
  return put key (.table .header (← assignAll pairs old)) entries

/-- Files the pairs below a header that adds a table to a series. -/
def extend (key : String) (pairs : List (List String × Value)) (entries : Entries) :
    Option Entries := do
  let old ←
    match entries.lookup key with
    | none => some []
    | some (.series old) => some old
    | some _ => none
  return put key (.series (old ++ [← assignAll pairs []])) entries

def fileSection (entries : Entries) (s : Section) : Option Entries :=
  match s.path.getLast? with
  | none => assignAll s.pairs entries
  | some key => change (if s.repeated then extend key s.pairs else define key s.pairs)
      s.path.dropLast entries

/-- The tree of a document. -/
def fileSections (sections : List Section) : Option Entries := sections.foldlM fileSection []

end Injection.Toml
