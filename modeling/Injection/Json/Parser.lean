import Injection.Json.Number

/-!
# Reading JSON

The text of a JSON document as a value. Of two equal keys in an object the later one counts.

Each step of the reader takes the rest of the text and gives back what is left of it. The reader of
nested values counts down from the length of the text, which bounds the steps that it can take.

## Main definitions

* `Json.stringBody` — a string.
* `Json.parse?` — a whole document.
-/

namespace Injection.Json

/-- Whether a character may stand between the parts of a document. -/
def isBlank (c : Char) : Bool := c == ' ' || c == '\t' || c == '\n' || c == '\r'

/-! ## Strings -/

/-- The value of a hexadecimal digit. -/
def hexValue? (c : Char) : Option Nat :=
  if '0' ≤ c && c ≤ '9' then some (c.toNat - '0'.toNat)
  else if 'a' ≤ c && c ≤ 'f' then some (c.toNat - 'a'.toNat + 10)
  else if 'A' ≤ c && c ≤ 'F' then some (c.toNat - 'A'.toNat + 10)
  else none

/-- The number written by hexadecimal digits. -/
def hexNumber? (digits : List Char) : Option Nat :=
  digits.foldl (fun done c => do return 16 * (← done) + (← hexValue? c)) (some 0)

/-- The character that a one-letter escape stands for. -/
def escaped? : Char → Option Char
  | '"' => some '"'
  | '\\' => some '\\'
  | '/' => some '/'
  | 'b' => some '\x08'
  | 'f' => some '\x0c'
  | 'n' => some '\n'
  | 'r' => some '\r'
  | 't' => some '\t'
  | _ => none

/-- The rest of a string whose opening quote has been read, after the characters `done`, the last
of them first. Code points beyond the basic plane are escaped as a pair of surrogates. -/
def stringBody (done : List Char) : List Char → Option (String × List Char)
  | '"' :: rest => some (String.ofList done.reverse, rest)
  | '\\' :: 'u' :: a :: b :: c :: d :: rest =>
    match hexNumber? [a, b, c, d] with
    | none => none
    | some unit =>
      if 0xd800 ≤ unit && unit < 0xdc00 then
        match rest with
        | '\\' :: 'u' :: e :: f :: g :: h :: rest =>
          match hexNumber? [e, f, g, h] with
          | none => none
          | some low =>
            if 0xdc00 ≤ low && low < 0xe000 then
              stringBody
                (Char.ofNat (0x10000 + (unit - 0xd800) * 0x400 + (low - 0xdc00)) :: done) rest
            else none
        | _ => none
      else if 0xdc00 ≤ unit && unit < 0xe000 then none
      else stringBody (Char.ofNat unit :: done) rest
  | '\\' :: c :: rest =>
    match escaped? c with
    | none => none
    | some c => stringBody (c :: done) rest
  | c :: rest => if c < ' ' then none else stringBody (c :: done) rest
  | [] => none

/-! ## Documents -/

def skipBlank (text : List Char) : List Char := text.dropWhile isBlank

/-- The fields of an object, without those that a later one of the same key replaces. -/
def lastFields (fields : List (String × Value)) : List (String × Value) :=
  fields.foldr (fun field kept =>
    if kept.any (·.1 == field.1) then kept else field :: kept) []

mutual

/-- Reads a value and the blanks before it. -/
def value : Nat → List Char → Option (Value × List Char)
  | 0, _ => none
  | fuel + 1, text =>
    match skipBlank text with
    | '"' :: rest => (stringBody [] rest).map fun (text, rest) => (.text text, rest)
    | '[' :: rest =>
      match skipBlank rest with
      | ']' :: rest => some (.list [], rest)
      | rest => (items fuel rest).map fun (items, rest) => (.list items, rest)
    | '{' :: rest =>
      match skipBlank rest with
      | '}' :: rest => some (.object [], rest)
      | rest => (members fuel rest).map fun (fields, rest) => (.object (lastFields fields), rest)
    | 't' :: 'r' :: 'u' :: 'e' :: rest => some (.bool true, rest)
    | 'f' :: 'a' :: 'l' :: 's' :: 'e' :: rest => some (.bool false, rest)
    | 'n' :: 'u' :: 'l' :: 'l' :: rest => some (.null, rest)
    | rest => number rest

/-- Reads one item of a list or more, and the closing bracket. -/
def items : Nat → List Char → Option (List Value × List Char)
  | 0, _ => none
  | fuel + 1, text =>
    match value fuel text with
    | none => none
    | some (item, rest) =>
      match skipBlank rest with
      | ',' :: rest => (items fuel rest).map fun (more, rest) => (item :: more, rest)
      | ']' :: rest => some ([item], rest)
      | _ => none

/-- Reads one field of an object or more, and the closing brace. -/
def members : Nat → List Char → Option (List (String × Value) × List Char)
  | 0, _ => none
  | fuel + 1, text =>
    match skipBlank text with
    | '"' :: rest =>
      match stringBody [] rest with
      | none => none
      | some (key, rest) =>
        match skipBlank rest with
        | ':' :: rest =>
          match value fuel rest with
          | none => none
          | some (item, rest) =>
            match skipBlank rest with
            | ',' :: rest =>
              (members fuel rest).map fun (more, rest) => ((key, item) :: more, rest)
            | '}' :: rest => some ([(key, item)], rest)
            | _ => none
        | _ => none
    | _ => none

end

def parse? (text : String) : Option Value :=
  let chars := text.toList
  match value (2 * chars.length + 1) chars with
  | some (value, rest) => if (skipBlank rest).isEmpty then some value else none
  | none => none

end Injection.Json
