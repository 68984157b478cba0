import Injection.KeyMap
import Injection.Name
import Injection.Text.Quoted
import Injection.Value

/-!
# Decoding values

How a value is taken for a text, a number, a list, a choice or a record, and what is said about a
value that cannot be. A record is written as an object, whose keys are looked at in ascending
order, or as a list of its fields. A missing field is reported only when every field that is there
could be decoded.

## Main definitions

* `Format` — where the formats of documents differ.
* `DecodeError` — why a value could not be decoded, with `DecodeError.message`.
* `Decode.text`, `Decode.uint32`, `Decode.name`, `Decode.listOf`, … — decoders of single values.
* `Decode.record`, `Decode.field?`, `Decode.item?` — the parts of a decoder of records.
* `Decode.pairOf` — a pair.
* `Decode.choice` — a choice between named alternatives.
-/

namespace Injection

/-- Where the formats of documents differ in what stands for a declaration. -/
structure Format where
  /-- Whether a list that stands for a record may go on after the last field. -/
  allowsSurplus : Bool
  /-- Whether a value adds nothing to the name of the choice that it is filed under. -/
  isEmptyContent : Value → Bool

namespace Format

/-- In JSON a list has as many items as the record has fields, and no content is `null`. -/
def json : Format where
  allowsSurplus := false
  isEmptyContent
    | .null => true
    | _ => false

/-- In TOML further items are passed over, and no content is an empty table or list. -/
def toml : Format where
  allowsSurplus := true
  isEmptyContent
    | .object fields => fields.isEmpty
    | .list items => items.isEmpty
    | _ => false

end Format

/-- How messages speak of a value. -/
def Value.described : Value → String
  | .null => "null"
  | .bool value => "boolean `" ++ (if value then "true" else "false") ++ "`"
  | .integer value => "integer `" ++ toString value ++ "`"
  | .real shown => "floating point `" ++ shown ++ "`"
  | .text value => "string " ++ Text.quoted value
  | .moment _ => "map"
  | .list _ => "sequence"
  | .object _ => "map"

/-- Why a value could not be decoded. -/
inductive DecodeError where
  /-- A value of another type. -/
  | invalidType (found : Value) (expected : String)
  /-- An integer out of range. -/
  | invalidInteger (found : Int) (expected : String)
  /-- A text that is not the written form of a name. -/
  | invalidName (found : String)
  /-- A choice between two alternatives that names neither. -/
  | unknownVariant (found : String) (first second : String)
  /-- An object for a choice that has not exactly one key. -/
  | notOneKey
  /-- An object without a field that has no default. -/
  | missingField (field : String)
  /-- A list that ends before a field that has no default. -/
  | tooShort (length : Nat) (expected : String)
  /-- A list that goes on after the last field. -/
  | tooLong (length : Nat)
deriving Inhabited

/-- What is said of a text that is not the written form of a name. -/
def invalidNameMessage (text : String) : String :=
  "invalid qualified name '" ++ text ++ "': expected '<module>:<local>'"

/-- The wording of an error. -/
def DecodeError.message : DecodeError → String
  | invalidType found expected => s!"invalid type: {found.described}, expected {expected}"
  | invalidInteger found expected => s!"invalid value: integer `{found}`, expected {expected}"
  | invalidName found => invalidNameMessage found
  | unknownVariant found first second =>
    s!"unknown variant `{found}`, expected `{first}` or `{second}`"
  | notOneKey => "invalid value: map, expected map with a single key"
  | missingField field => s!"missing field `{field}`"
  | tooShort length expected => s!"invalid length {length}, expected {expected}"
  | tooLong length => s!"invalid length {length}, expected fewer elements in array"

abbrev Decoded (α : Type) := Except DecodeError α

namespace Decode

variable {α : Type}

/-! ## Single values -/

def text : Value → Decoded String
  | .text value => return value
  | value => throw (.invalidType value "a string")

def bool : Value → Decoded Bool
  | .bool value => return value
  | value => throw (.invalidType value "a boolean")

def uint32 : Value → Decoded UInt32
  | .integer value =>
    if 0 ≤ value ∧ value.toNat < UInt32.size then return UInt32.ofNat value.toNat
    else throw (.invalidInteger value "u32")
  | value => throw (.invalidType value "u32")

def name (value : Value) : Decoded QualifiedName := do
  let written ← text value
  match QualifiedName.parse? written with
  | some name => return name
  | none => throw (.invalidName written)

/-- A text, or nothing. -/
def text? : Value → Decoded (Option String)
  | .null => return none
  | value => some <$> text value

/-! ## Collections -/

def list : Value → Decoded (List Value)
  | .list items => return items
  | value => throw (.invalidType value "a sequence")

/-- A list of values that are decoded in turn. -/
def listOf (decode : Value → Decoded α) (value : Value) : Decoded (List α) := do
  (← list value).mapM decode

def names (value : Value) : Decoded NameSet := NameSet.ofNames <$> listOf text value

/-- The fields of an object in ascending order of the keys. -/
def sorted (fields : List (String × Value)) : List (String × Value) :=
  fields.mergeSort fun a b => a.1 ≤ b.1

/-- A map of values that are decoded in ascending order of the keys. -/
def mapOf (decode : Value → Decoded α) : Value → Decoded (KeyMap α)
  | .object fields =>
    KeyMap.ofList <$> (sorted fields).mapM fun (key, value) => return (key, ← decode value)
  | value => throw (.invalidType value "a map")

/-! ## Records -/

/-- The field under `key` of a record that is written as an object. -/
def field? (fields : List (String × Value)) (key : String) (decode : Value → Decoded α) :
    Decoded (Option α) :=
  match fields.lookup key with
  | none => return none
  | some value => some <$> decode value

/-- The field at `index` of a record that is written as a list. -/
def item? (items : List Value) (index : Nat) (decode : Value → Decoded α) : Decoded (Option α) :=
  match items[index]? with
  | none => return none
  | some value => some <$> decode value

/-- A field without a default. -/
def required (error : DecodeError) : Option α → Decoded α
  | none => throw error
  | some value => return value

/-- The list `items` is too short for a record of `size` fields. -/
def tooShortFor (type : String) (size : Nat) (items : List Value) : DecodeError :=
  .tooShort items.length s!"struct {type} with {size} elements"

/-- A record of `size` fields, given by its readings from an object and from a list. -/
def record (format : Format) (type : String) (size : Nat)
    (ofFields : List (String × Value) → Decoded α) (ofItems : List Value → Decoded α) :
    Value → Decoded α
  | .object fields => ofFields fields
  | .list items => do
    let result ← ofItems items
    if items.length > size && !format.allowsSurplus then throw (.tooLong items.length)
    return result
  | value => throw (.invalidType value ("struct " ++ type))

/-- A pair, written as a list of two items. -/
def pairOf {β : Type} (first : Value → Decoded α) (second : Value → Decoded β) :
    Value → Decoded (α × β)
  | .list items => do
    let error := .tooShort items.length "a tuple of size 2"
    let a ← required error (← item? items 0 first)
    let b ← required error (← item? items 1 second)
    if items.length > 2 then throw (.tooLong items.length)
    return (a, b)
  | value => throw (.invalidType value "a tuple of size 2")

/-! ## Choices -/

/-- The alternative with a name. -/
def variant (first second : String × α) (name : String) : Decoded α :=
  if name = first.1 then return first.2
  else if name = second.1 then return second.2
  else throw (.unknownVariant name first.1 second.1)

/-- A choice between two alternatives: the name of one, or an object with that name as its only
key and no content under it. -/
def choice (format : Format) (first second : String × α) : Value → Decoded α
  | .text name => variant first second name
  | .object [(name, content)] => do
    let chosen ← variant first second name
    if format.isEmptyContent content then return chosen
    else throw (.invalidType content "unit")
  | .object _ => throw .notOneKey
  | value => throw (.invalidType value "string or map")

end Decode

end Injection
