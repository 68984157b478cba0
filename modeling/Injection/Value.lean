/-!
# Values

What a document holds before it is known to be a declaration: the values of JSON, and of TOML,
whose dates and times have a form of their own.

## Main definitions

* `Value` — the values.
* `Value.field?` — what an object holds under a key.
-/

namespace Injection

/-- A value of a document. -/
inductive Value where
  | null
  | bool (value : Bool)
  /-- A number written without a fraction or an exponent. -/
  | integer (value : Int)
  /-- Any other number, by the text that messages show. -/
  | real (shown : String)
  | text (value : String)
  /-- A date or a time, as written. -/
  | moment (written : String)
  | list (items : List Value)
  /-- Values under keys, in the order of the document. -/
  | object (fields : List (String × Value))
deriving Inhabited

namespace Value

/-- What an object holds under a key. -/
def field? (value : Value) (key : String) : Option Value :=
  match value with
  | .object fields => fields.lookup key
  | _ => none

def ofNat (n : Nat) : Value := .integer n

/-- A text, or nothing. -/
def ofText? : Option String → Value
  | none => .null
  | some value => .text value

/-- A list of texts. -/
def ofTexts (texts : List String) : Value := .list (texts.map .text)

end Value

end Injection
