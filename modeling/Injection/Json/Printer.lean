import Injection.Text.Quoted
import Injection.Value

/-!
# Printing JSON

Values as JSON text, on one line or indented by two blanks. Only a quote, a backslash and control
characters are escaped. A date or time has no JSON form of its own and is printed as a text.

## Main definitions

* `Json.quoted` — a text as a JSON string.
* `Json.compact` — a value on one line.
* `Json.pretty` — a value with one item a line.
-/

namespace Injection.Json

/-- A character as it stands in a JSON string. -/
def quotedChar (c : Char) : String :=
  match c with
  | '"' => "\\\""
  | '\\' => "\\\\"
  | '\x08' => "\\b"
  | '\t' => "\\t"
  | '\n' => "\\n"
  | '\x0c' => "\\f"
  | '\r' => "\\r"
  | c =>
    if c < ' ' then "\\u00" ++ (if c.toNat < 16 then "0" else "") ++ Text.hexDigits c.toNat
    else c.toString

/-- A text as a JSON string. -/
def quoted (text : String) : String :=
  "\"" ++ String.join (text.toList.map quotedChar) ++ "\""

mutual

/-- A value as JSON text on one line. -/
def compact : Value → String
  | .null => "null"
  | .bool value => if value then "true" else "false"
  | .integer value => toString value
  | .real shown => shown
  | .text value => quoted value
  | .moment written => quoted written
  | .list items => "[" ++ String.intercalate "," (compactItems items) ++ "]"
  | .object fields => "\x7b" ++ String.intercalate "," (compactFields fields) ++ "\x7d"

/-- Each item on one line. -/
def compactItems : List Value → List String
  | [] => []
  | item :: rest => compact item :: compactItems rest

/-- Each field on one line. -/
def compactFields : List (String × Value) → List String
  | [] => []
  | (key, value) :: rest => (quoted key ++ ":" ++ compact value) :: compactFields rest

end

/-- The start of a line that stands `depth` levels deep. -/
def indent (depth : Nat) : String := "\n" ++ String.ofList (List.replicate (2 * depth) ' ')

/-- The parts between two brackets, one a line, `depth` levels deep. -/
def block (opening closing : String) (depth : Nat) (parts : List String) : String :=
  if parts.isEmpty then opening ++ closing
  else opening ++ String.intercalate "," (parts.map (indent (depth + 1) ++ ·)) ++
    indent depth ++ closing

mutual

/-- A value as JSON text with one item a line, the first line standing `depth` levels deep. -/
def prettyAt (depth : Nat) : Value → String
  | .list items => block "[" "]" depth (prettyItems (depth + 1) items)
  | .object fields => block "\x7b" "\x7d" depth (prettyFields (depth + 1) fields)
  | .null => "null"
  | .bool value => if value then "true" else "false"
  | .integer value => toString value
  | .real shown => shown
  | .text value => quoted value
  | .moment written => quoted written

/-- Each item as it stands `depth` levels deep. -/
def prettyItems (depth : Nat) : List Value → List String
  | [] => []
  | item :: rest => prettyAt depth item :: prettyItems depth rest

/-- Each field as it stands `depth` levels deep. -/
def prettyFields (depth : Nat) : List (String × Value) → List String
  | [] => []
  | (key, value) :: rest => (quoted key ++ ": " ++ prettyAt depth value) :: prettyFields depth rest

end

/-- A value as JSON text with one item a line. -/
def pretty (value : Value) : String := prettyAt 0 value

end Injection.Json
