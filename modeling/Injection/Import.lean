import Injection.Declaration
import Injection.Fault

/-!
# Imports

Which imports of a module count, and whether a component can be plugged into its importer.

## Main definitions

* `ModuleDecl.isExcluded`, `ModuleDecl.isNotIncluded` — why an import does not count.
* `ModuleDecl.selection` — the imports that count, each component once.
* `checkFit` — whether a component fits.
-/

namespace Injection

namespace ModuleDecl

variable (m : ModuleDecl)

/-- Whether the exclusions name a component. -/
def isExcluded (component : ModuleName) : Bool := m.excludes.contains component

/-- Whether there are inclusions and none names a component. -/
def isNotIncluded (component : ModuleName) : Bool :=
  !m.includes.isEmpty && !m.includes.contains component

/-- Whether the imports of a component count. -/
def admits (component : ModuleName) : Bool := !m.isExcluded component && !m.isNotIncluded component

/-- The imports that count, in order: the first one of each component that is admitted. -/
def selection : List Import :=
  distinctBy Import.component (m.imports.filter fun imported => m.admits imported.component)

end ModuleDecl

/-- The fault of a binding, if it has one: its key must name a socket of the component, and its
provider must be declared by the importer. -/
def bindingFault? (importer component : ModuleDecl) (key : String) (provider : QualifiedName) :
    Option CompositionFault :=
  let socket := qualify component.name key
  if (component.socket? socket).isNone then
    some (.unknownSocket importer.name component.name key)
  else if !importer.declares provider then
    some (.resolve (.malformed importer.name socket provider))
  else none

/-- The first required socket of a component whose local name an import leaves unbound. -/
def unboundSocket? (imported : Import) (component : ModuleDecl) : Option Socket :=
  component.sockets.find? fun socket =>
    socket.required && !imported.bindings.contains socket.name.localPart

/-- Checks that a component can be plugged into its importer as an import says: its version, then
each binding in the order of the keys, then its required sockets. -/
def checkFit (importer : ModuleDecl) (imported : Import) (component : ModuleDecl)
    (supported : UInt32) : Except CompositionFault Unit :=
  if component.version != supported then
    .error (.unsupportedVersion component.name component.version supported)
  else
    match imported.bindings.entries.findSome? fun (key, provider) =>
        bindingFault? importer component key provider with
    | some fault => .error fault
    | none =>
      match unboundSocket? imported component with
      | some socket => .error (.unboundSocket importer.name component.name socket.name)
      | none => .ok ()

end Injection
