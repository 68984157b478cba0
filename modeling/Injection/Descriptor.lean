import Injection.Declaration.Document
import Injection.Graph.Fingerprint
import Injection.Json.Printer

/-!
# Descriptors

What code generation has to know of a resolved module: its beans in the order of instantiation,
its sockets, its wiring, and a fingerprint of the wiring that tells whether a descriptor from an
earlier run is still good.

## Main definitions

* `Descriptor` — the summary.
* `Descriptor.describe` — the summary of a graph in a given order.
* `Descriptor.canReuse` — whether an earlier descriptor can be used again.
* `Descriptor.toValue`, `Descriptor.decode`, `Descriptor.text` — its document form.
-/

namespace Injection

/-- The summary of a resolved module. -/
structure Descriptor where
  home : ModuleName
  version : UInt32
  /-- The beans in the order of instantiation. -/
  beans : List QualifiedName
  requiredSockets : List QualifiedName
  optionalSockets : List QualifiedName
  wires : List Wire
  fingerprint : String
deriving BEq, Inhabited

namespace Graph

/-- The beans among the nodes of an order. -/
def beansOf (g : Graph) (order : List Nat) : List Bean :=
  order.filterMap fun index => g.nodes[index]?.bind Node.bean?

def sockets (g : Graph) : List Socket := g.nodes.filterMap Node.socket?

end Graph

namespace Descriptor

/-- The summary of a graph whose nodes are instantiated in a given order. -/
def describe (version : UInt32) (g : Graph) (order : List Nat) : Descriptor where
  home := g.home
  version := version
  beans := (g.beansOf order).map (·.name)
  requiredSockets := (g.sockets.filter (·.required)).map (·.name)
  optionalSockets := (g.sockets.filter (!·.required)).map (·.name)
  wires := g.wires
  fingerprint := g.fingerprint

/-- Whether an earlier descriptor can be used again. -/
def canReuse (descriptor previous : Descriptor) : Bool :=
  descriptor.home == previous.home && descriptor.fingerprint == previous.fingerprint

end Descriptor

/-! ## Document form -/

namespace Wire

def toValue (wire : Wire) : Value :=
  .object [("from", wire.source.toValue), ("to", wire.target.toValue),
    ("label", .text wire.label), ("nested", .bool wire.nested)]

def ofParts (gap : String → DecodeError) (source target : Option QualifiedName)
    (label : Option String) (nested : Option Bool) : Decoded Wire := do
  return {
    source := ← Decode.required (gap "from") source
    target := ← Decode.required (gap "to") target
    label := ← Decode.required (gap "label") label
    nested := ← Decode.required (gap "nested") nested }

def ofFields (fields : List (String × Value)) : Decoded Wire := do
  let source ← Decode.field? fields "from" Decode.name
  let label ← Decode.field? fields "label" Decode.text
  let nested ← Decode.field? fields "nested" Decode.bool
  let target ← Decode.field? fields "to" Decode.name
  ofParts .missingField source target label nested

def ofItems (items : List Value) : Decoded Wire := do
  let source ← Decode.item? items 0 Decode.name
  let target ← Decode.item? items 1 Decode.name
  let label ← Decode.item? items 2 Decode.text
  let nested ← Decode.item? items 3 Decode.bool
  ofParts (fun _ => Decode.tooShortFor "WiringEdge" 4 items) source target label nested

def decode (format : Format) : Value → Decoded Wire :=
  Decode.record format "WiringEdge" 4 ofFields ofItems

end Wire

namespace Descriptor

def namesValue (names : List QualifiedName) : Value := .list (names.map QualifiedName.toValue)

def toValue (descriptor : Descriptor) : Value :=
  .object [("module", .text descriptor.home), ("version", .ofNat descriptor.version.toNat),
    ("beans", namesValue descriptor.beans),
    ("required_sockets", namesValue descriptor.requiredSockets),
    ("optional_sockets", namesValue descriptor.optionalSockets),
    ("edges", .list (descriptor.wires.map Wire.toValue)),
    ("content_hash", .text descriptor.fingerprint)]

/-- The text of a descriptor, one item a line. -/
def text (descriptor : Descriptor) : String := Json.pretty descriptor.toValue

def ofParts (gap : String → DecodeError) (home : Option ModuleName) (version : Option UInt32)
    (beans requiredSockets optionalSockets : Option (List QualifiedName))
    (wires : Option (List Wire)) (fingerprint : Option String) : Decoded Descriptor := do
  return {
    home := ← Decode.required (gap "module") home
    version := ← Decode.required (gap "version") version
    beans := ← Decode.required (gap "beans") beans
    requiredSockets := ← Decode.required (gap "required_sockets") requiredSockets
    optionalSockets := ← Decode.required (gap "optional_sockets") optionalSockets
    wires := ← Decode.required (gap "edges") wires
    fingerprint := ← Decode.required (gap "content_hash") fingerprint }

def ofFields (format : Format) (fields : List (String × Value)) : Decoded Descriptor := do
  let beans ← Decode.field? fields "beans" (Decode.listOf Decode.name)
  let fingerprint ← Decode.field? fields "content_hash" Decode.text
  let wires ← Decode.field? fields "edges" (Decode.listOf (Wire.decode format))
  let home ← Decode.field? fields "module" Decode.text
  let optionalSockets ← Decode.field? fields "optional_sockets" (Decode.listOf Decode.name)
  let requiredSockets ← Decode.field? fields "required_sockets" (Decode.listOf Decode.name)
  let version ← Decode.field? fields "version" Decode.uint32
  ofParts .missingField home version beans requiredSockets optionalSockets wires fingerprint

def ofItems (format : Format) (items : List Value) : Decoded Descriptor := do
  let home ← Decode.item? items 0 Decode.text
  let version ← Decode.item? items 1 Decode.uint32
  let beans ← Decode.item? items 2 (Decode.listOf Decode.name)
  let requiredSockets ← Decode.item? items 3 (Decode.listOf Decode.name)
  let optionalSockets ← Decode.item? items 4 (Decode.listOf Decode.name)
  let wires ← Decode.item? items 5 (Decode.listOf (Wire.decode format))
  let fingerprint ← Decode.item? items 6 Decode.text
  ofParts (fun _ => Decode.tooShortFor "ModuleDescriptor" 7 items)
    home version beans requiredSockets optionalSockets wires fingerprint

def decode (format : Format) : Value → Decoded Descriptor :=
  Decode.record format "ModuleDescriptor" 7 (ofFields format) (ofItems format)

end Descriptor

end Injection
