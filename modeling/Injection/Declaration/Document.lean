import Injection.Declaration
import Injection.Decoding
import Injection.Toml.Parser

/-!
# Declarations in documents

Declarations as values of a document. Every field is written; on reading, a field with a default
may be left out and unknown keys are passed over.

## Main definitions

* `ModuleDecl.decode`, `Import.decode`, … — reading, for a `Format`.
* `ModuleDecl.toValue`, `Import.toValue`, … — writing.
* `ModuleDecl.ofToml?` — reading from the text of a TOML document.
-/

namespace Injection

def QualifiedName.toValue (name : QualifiedName) : Value := .text name.rendered

/-! ## Strategy -/

namespace Strategy

def word : Strategy → String
  | singleton => "singleton"
  | prototype => "prototype"

def toValue (strategy : Strategy) : Value := .text strategy.word

def decode (format : Format) : Value → Decoded Strategy :=
  Decode.choice format ("singleton", singleton) ("prototype", prototype)

end Strategy

/-! ## Kind of a dependency -/

namespace DependencyKind

def toValue : DependencyKind → Value
  | direct => .object [("type", .text "direct")]
  | nested path => .object [("type", .text "nested"), ("path", .ofTexts path)]

/-- Reads the word for a kind, which tells whether a path follows. -/
def decodeIsNested (format : Format) : Value → Decoded Bool :=
  Decode.choice format ("direct", false) ("nested", true)

/-- Reads what a kind holds beside its word. -/
def decodeContent (isNested : Bool) (content : Value) : Decoded DependencyKind :=
  if isNested then nested <$> Decode.listOf Decode.text content
  else
    match content with
    | .null => return direct
    | content => throw (.invalidType content "unit variant DependencyKind::Direct")

def ofFields (format : Format) (fields : List (String × Value)) : Decoded DependencyKind := do
  let isNested ← Decode.required (.missingField "type")
    (← Decode.field? fields "type" (decodeIsNested format))
  match fields.lookup "path" with
  | some content => decodeContent isNested content
  | none => if isNested then throw (.missingField "path") else return direct

/-- How messages speak of the form of a kind. -/
def form : String := "adjacently tagged enum DependencyKind"

def ofItems (format : Format) (items : List Value) : Decoded DependencyKind := do
  let isNested ← Decode.required (.tooShort items.length form)
    (← Decode.item? items 0 (decodeIsNested format))
  let kind ← Decode.required (.tooShort items.length form)
    (← Decode.item? items 1 (decodeContent isNested))
  if items.length > 2 && !format.allowsSurplus then throw (.tooLong items.length)
  return kind

def decode (format : Format) : Value → Decoded DependencyKind
  | .object fields => ofFields format fields
  | .list items => ofItems format items
  | value => throw (.invalidType value form)

end DependencyKind

/-! ## Dependency -/

namespace Dependency

def toValue (dependency : Dependency) : Value :=
  .object [("target", dependency.target.toValue), ("label", .text dependency.label),
    ("kind", dependency.kind.toValue)]

def ofParts (gap : String → DecodeError) (target : Option QualifiedName) (label : Option String)
    (kind : Option DependencyKind) : Decoded Dependency := do
  return {
    target := ← Decode.required (gap "target") target
    label := ← Decode.required (gap "label") label
    kind := kind.getD .direct }

def ofFields (format : Format) (fields : List (String × Value)) : Decoded Dependency := do
  let kind ← Decode.field? fields "kind" (DependencyKind.decode format)
  let label ← Decode.field? fields "label" Decode.text
  let target ← Decode.field? fields "target" Decode.name
  ofParts .missingField target label kind

def ofItems (format : Format) (items : List Value) : Decoded Dependency := do
  let target ← Decode.item? items 0 Decode.name
  let label ← Decode.item? items 1 Decode.text
  let kind ← Decode.item? items 2 (DependencyKind.decode format)
  ofParts (fun _ => Decode.tooShortFor "DependencyRef" 3 items) target label kind

def decode (format : Format) : Value → Decoded Dependency :=
  Decode.record format "DependencyRef" 3 (ofFields format) (ofItems format)

end Dependency

/-! ## Bean -/

namespace Bean

def toValue (bean : Bean) : Value :=
  .object [("name", bean.name.toValue), ("strategy", bean.strategy.toValue),
    ("is_wrapper", .bool bean.isWrapper),
    ("dependencies", .list (bean.dependencies.map Dependency.toValue)),
    ("init", .ofText? bean.init), ("destroy", .ofText? bean.destroy)]

def ofParts (gap : String → DecodeError) (name : Option QualifiedName)
    (strategy : Option Strategy) (isWrapper : Option Bool) (dependencies : Option (List Dependency))
    (init destroy : Option (Option String)) : Decoded Bean := do
  return {
    name := ← Decode.required (gap "name") name
    strategy := strategy.getD .singleton
    isWrapper := isWrapper.getD false
    dependencies := dependencies.getD []
    init := init.getD none
    destroy := destroy.getD none }

def ofFields (format : Format) (fields : List (String × Value)) : Decoded Bean := do
  let dependencies ← Decode.field? fields "dependencies" (Decode.listOf (Dependency.decode format))
  let destroy ← Decode.field? fields "destroy" Decode.text?
  let init ← Decode.field? fields "init" Decode.text?
  let isWrapper ← Decode.field? fields "is_wrapper" Decode.bool
  let name ← Decode.field? fields "name" Decode.name
  let strategy ← Decode.field? fields "strategy" (Strategy.decode format)
  ofParts .missingField name strategy isWrapper dependencies init destroy

def ofItems (format : Format) (items : List Value) : Decoded Bean := do
  let name ← Decode.item? items 0 Decode.name
  let strategy ← Decode.item? items 1 (Strategy.decode format)
  let isWrapper ← Decode.item? items 2 Decode.bool
  let dependencies ← Decode.item? items 3 (Decode.listOf (Dependency.decode format))
  let init ← Decode.item? items 4 Decode.text?
  let destroy ← Decode.item? items 5 Decode.text?
  ofParts (fun _ => Decode.tooShortFor "BeanDeclaration" 6 items)
    name strategy isWrapper dependencies init destroy

def decode (format : Format) : Value → Decoded Bean :=
  Decode.record format "BeanDeclaration" 6 (ofFields format) (ofItems format)

end Bean

/-! ## Socket -/

namespace Socket

def toValue (socket : Socket) : Value :=
  .object [("name", socket.name.toValue), ("required", .bool socket.required)]

def ofParts (gap : String → DecodeError) (name : Option QualifiedName) (required : Option Bool) :
    Decoded Socket := do
  return {
    name := ← Decode.required (gap "name") name
    required := required.getD true }

def ofFields (fields : List (String × Value)) : Decoded Socket := do
  let name ← Decode.field? fields "name" Decode.name
  let required ← Decode.field? fields "required" Decode.bool
  ofParts .missingField name required

def ofItems (items : List Value) : Decoded Socket := do
  let name ← Decode.item? items 0 Decode.name
  let required ← Decode.item? items 1 Decode.bool
  ofParts (fun _ => Decode.tooShortFor "SocketDeclaration" 2 items) name required

def decode (format : Format) : Value → Decoded Socket :=
  Decode.record format "SocketDeclaration" 2 ofFields ofItems

end Socket

/-! ## Import -/

namespace Import

def toValue (imported : Import) : Value :=
  .object [("module", .text imported.component),
    ("bindings", .object (imported.bindings.entries.map fun (socket, provider) =>
      (socket, provider.toValue)))]

def ofParts (gap : String → DecodeError) (component : Option ModuleName)
    (bindings : Option (KeyMap QualifiedName)) : Decoded Import := do
  return {
    component := ← Decode.required (gap "module") component
    bindings := bindings.getD .empty }

def ofFields (fields : List (String × Value)) : Decoded Import := do
  let bindings ← Decode.field? fields "bindings" (Decode.mapOf Decode.name)
  let component ← Decode.field? fields "module" Decode.text
  ofParts .missingField component bindings

def ofItems (items : List Value) : Decoded Import := do
  let component ← Decode.item? items 0 Decode.text
  let bindings ← Decode.item? items 1 (Decode.mapOf Decode.name)
  ofParts (fun _ => Decode.tooShortFor "ModuleImport" 2 items) component bindings

def decode (format : Format) : Value → Decoded Import :=
  Decode.record format "ModuleImport" 2 ofFields ofItems

end Import

/-! ## Module -/

namespace ModuleDecl

def toValue (m : ModuleDecl) : Value :=
  .object [("name", .text m.name), ("version", .ofNat m.version.toNat),
    ("beans", .list (m.beans.map Bean.toValue)), ("sockets", .list (m.sockets.map Socket.toValue)),
    ("imports", .list (m.imports.map Import.toValue)), ("includes", .ofTexts m.includes.keys),
    ("excludes", .ofTexts m.excludes.keys)]

def ofParts (gap : String → DecodeError) (name : Option ModuleName) (version : Option UInt32)
    (beans : Option (List Bean)) (sockets : Option (List Socket)) (imports : Option (List Import))
    (includes excludes : Option NameSet) : Decoded ModuleDecl := do
  return {
    name := ← Decode.required (gap "name") name
    version := version.getD 1
    beans := beans.getD []
    sockets := sockets.getD []
    imports := imports.getD []
    includes := includes.getD .empty
    excludes := excludes.getD .empty }

def ofFields (format : Format) (fields : List (String × Value)) : Decoded ModuleDecl := do
  let beans ← Decode.field? fields "beans" (Decode.listOf (Bean.decode format))
  let excludes ← Decode.field? fields "excludes" Decode.names
  let imports ← Decode.field? fields "imports" (Decode.listOf (Import.decode format))
  let includes ← Decode.field? fields "includes" Decode.names
  let name ← Decode.field? fields "name" Decode.text
  let sockets ← Decode.field? fields "sockets" (Decode.listOf (Socket.decode format))
  let version ← Decode.field? fields "version" Decode.uint32
  ofParts .missingField name version beans sockets imports includes excludes

def ofItems (format : Format) (items : List Value) : Decoded ModuleDecl := do
  let name ← Decode.item? items 0 Decode.text
  let version ← Decode.item? items 1 Decode.uint32
  let beans ← Decode.item? items 2 (Decode.listOf (Bean.decode format))
  let sockets ← Decode.item? items 3 (Decode.listOf (Socket.decode format))
  let imports ← Decode.item? items 4 (Decode.listOf (Import.decode format))
  let includes ← Decode.item? items 5 Decode.names
  let excludes ← Decode.item? items 6 Decode.names
  ofParts (fun _ => Decode.tooShortFor "ModuleDeclaration" 7 items)
    name version beans sockets imports includes excludes

def decode (format : Format) : Value → Decoded ModuleDecl :=
  Decode.record format "ModuleDeclaration" 7 (ofFields format) (ofItems format)

/-- Reads a module's declarations from a TOML document. -/
def ofToml? (text : String) : Option ModuleDecl :=
  (Toml.parse? text).bind fun document => (decode .toml document).toOption

end ModuleDecl

end Injection
