import Injection.Toml.Number
import Injection.Toml.Quoted
import Injection.Toml.Table

/-!
# Reading TOML

The text of a TOML document as a value. Lists and inline tables may stand within each other up to a
depth that no document of a person reaches, and a dotted key may have as many parts.

The reader of nested values and the reader of a document count down from the length of the text,
which bounds the steps that they can take.

## Main definitions

* `Toml.key`, `Toml.value` — a dotted key and a value.
* `Toml.sections` — the sections of a document.
* `Toml.parse?` — a whole document.
-/

namespace Injection.Toml

/-- The depth that nesting has to stay below. -/
def depthLimit : Nat := 80

/-- The text without blanks at its start. -/
def skipSpace (text : List Char) : List Char := text.dropWhile isSpace

/-- The text without a comment at its start. -/
def skipComment : List Char → List Char
  | '#' :: rest => rest.dropWhile isLineChar
  | text => text

/-- The text without blanks, comments and ends of lines at its start. -/
def skipLines (inComment : Bool) : List Char → List Char
  | '\r' :: '\n' :: rest => skipLines false rest
  | '\n' :: rest => skipLines false rest
  | c :: rest =>
    if inComment then
      if isLineChar c then skipLines true rest else c :: rest
    else if isSpace c then skipLines false rest
    else if c == '#' then skipLines true rest
    else c :: rest
  | [] => []

/-- What follows the end of a line, with a comment before it; the end of the text ends a line
too. -/
def lineEnd? (text : List Char) : Option (List Char) :=
  match skipComment (skipSpace text) with
  | [] => some []
  | rest => newline? rest

/-! ## Keys -/

/-- Whether a character may stand in a key without quotes. -/
def isBareChar (c : Char) : Bool := c.isAlphanum || c == '-' || c == '_'

/-- Reads one part of a key. -/
def keyPart : List Char → Option (String × List Char)
  | '"' :: rest => basicBody [] rest
  | '\'' :: rest => literalBody [] rest
  | text =>
    let bare := text.takeWhile isBareChar
    if bare.isEmpty then none else some (String.ofList bare, text.dropWhile isBareChar)

/-- Reads a dotted key and the blanks around its parts. -/
def keyParts : Nat → List Char → Option (List String × List Char)
  | 0, _ => none
  | fuel + 1, text =>
    match keyPart (skipSpace text) with
    | none => none
    | some (part, rest) =>
      match skipSpace rest with
      | '.' :: rest => (keyParts fuel rest).map fun (parts, rest) => (part :: parts, rest)
      | rest => some ([part], rest)

/-- Reads a dotted key of not too many parts. -/
def key (text : List Char) : Option (List String × List Char) :=
  (keyParts text.length text).filter (·.1.length < depthLimit)

/-! ## Values -/

/-- An inline table with some pairs. -/
def inlineTable? (pairs : List (List String × Value)) : Option Value :=
  (assignAll pairs []).map fun entries => (Item.table .header entries).toValue

mutual

/-- Reads a value that stands `depth` levels deep. -/
def value : Nat → Nat → List Char → Option (Value × List Char)
  | 0, _, _ => none
  | fuel + 1, depth, text =>
    match text with
    | '[' :: rest =>
      if depth + 1 < depthLimit then
        (items fuel (depth + 1) (skipLines false rest)).map fun (items, rest) => (.list items, rest)
      else none
    | '{' :: rest =>
      if depth + 1 < depthLimit then
        match skipSpace rest with
        | '}' :: rest => some (.object [], rest)
        | rest =>
          match pairs fuel (depth + 1) rest with
          | none => none
          | some (pairs, rest) => (inlineTable? pairs).map (·, rest)
      else none
    | 't' :: 'r' :: 'u' :: 'e' :: rest => some (.bool true, rest)
    | 'f' :: 'a' :: 'l' :: 's' :: 'e' :: rest => some (.bool false, rest)
    | text =>
      match quoted text with
      | some (text, rest) => some (.text text, rest)
      | none => number text

/-- Reads the items of a list and its closing bracket. -/
def items : Nat → Nat → List Char → Option (List Value × List Char)
  | 0, _, _ => none
  | fuel + 1, depth, text =>
    match text with
    | ']' :: rest => some ([], rest)
    | text =>
      match value fuel depth text with
      | none => none
      | some (item, rest) =>
        match skipLines false rest with
        | ',' :: rest =>
          (items fuel depth (skipLines false rest)).map fun (more, rest) => (item :: more, rest)
        | ']' :: rest => some ([item], rest)
        | _ => none

/-- Reads the pairs of an inline table, one or more, and its closing brace. -/
def pairs : Nat → Nat → List Char → Option (List (List String × Value) × List Char)
  | 0, _, _ => none
  | fuel + 1, depth, text =>
    match key text with
    | some (path, '=' :: rest) =>
      match value fuel depth (skipSpace rest) with
      | none => none
      | some (item, rest) =>
        match skipSpace rest with
        | ',' :: rest =>
          (pairs fuel depth rest).map fun (more, rest) => ((path, item) :: more, rest)
        | '}' :: rest => some ([(path, item)], rest)
        | _ => none
    | _ => none

end

/-! ## Documents -/

/-- Reads a pair on a line of its own. -/
def pair (text : List Char) : Option ((List String × Value) × List Char) :=
  match key text with
  | some (path, '=' :: rest) => do
    let (item, rest) ← value (2 * text.length) 0 (skipSpace rest)
    return ((path, item), ← lineEnd? rest)
  | _ => none

/-- Reads a header whose opening bracket has been read. -/
def header : List Char → Option (Section × List Char)
  | '[' :: rest =>
    match key rest with
    | some (path, ']' :: ']' :: rest) => (lineEnd? rest).map (⟨path, true, []⟩, ·)
    | _ => none
  | rest =>
    match key rest with
    | some (path, ']' :: rest) => (lineEnd? rest).map (⟨path, false, []⟩, ·)
    | _ => none

/-- A section with one more pair. -/
def Section.withPair (s : Section) (pair : List String × Value) : Section :=
  { s with pairs := s.pairs ++ [pair] }

/-- The rest of a document, of whose present section `current` holds what has been read. -/
def sections : Nat → Section → List Char → Option (List Section)
  | 0, _, _ => none
  | fuel + 1, current, text =>
    match skipSpace text with
    | [] => some [current]
    | '#' :: rest => (lineEnd? ('#' :: rest)).bind (sections fuel current)
    | '\n' :: rest => sections fuel current rest
    | '\r' :: '\n' :: rest => sections fuel current rest
    | '[' :: rest =>
      match header rest with
      | none => none
      | some (next, rest) => (sections fuel next rest).map (current :: ·)
    | rest =>
      match pair rest with
      | none => none
      | some (pair, rest) => sections fuel (current.withPair pair) rest

/-- The text without a byte order mark. -/
def skipMark : List Char → List Char
  | '\ufeff' :: rest => rest
  | text => text

def parse? (text : String) : Option Value := do
  let chars := skipMark text.toList
  let sections ← sections (chars.length + 1) ⟨[], false, []⟩ chars
  let entries ← fileSections sections
  return .object (fieldsOf entries)

end Injection.Toml
