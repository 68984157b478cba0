import Injection.Cycle.Diagram
import Injection.Import
import Injection.Reach

/-!
# Beans of components

A module that uses a bean of an imported component is resolved on its own: the bean appears in it
as an optional socket, a leaf. A second view of the module finds the cycles that run through a
component: in it the bean stands as a bean of the module, and depends on what the module plugs into
the component's sockets that the bean reaches.

## Main definitions

* `ModuleDecl.componentTargets` — the beans of components that a module uses.
* `withPlaceholders` — the module with those beans as sockets.
* `providersBehind` — what is plugged into the sockets that a bean reaches.
* `withStandIns` — the module with those beans as beans.
* `checkCrossing` — the cycles of that view.
-/

namespace Injection

/-! ## Used beans -/

/-- The targets of all dependencies, in order. -/
def ModuleDecl.targets (m : ModuleDecl) : List QualifiedName :=
  m.beans.flatMap fun bean => bean.dependencies.map (·.target)

/-- Whether a name is left to the components: of another module, and not declared by this one. -/
def ModuleDecl.leavesOpen (m : ModuleDecl) (name : QualifiedName) : Bool :=
  name.modulePart != m.name && !m.declares name

/-- The names that a module depends on and leaves to its components, of those that satisfy
`provided`, each once and in the order of first use. -/
def ModuleDecl.componentTargets (m : ModuleDecl) (provided : QualifiedName → Bool) :
    List QualifiedName :=
  QualifiedName.distinct (m.targets.filter fun target => m.leavesOpen target && provided target)

/-! ## Placeholders -/

/-- Whether one of the components has a bean of a name, in the module that the name says. -/
def isProvidedBy (components : List ModuleDecl) (name : QualifiedName) : Bool :=
  components.any fun component =>
    component.name == name.modulePart && (component.bean? name).isSome

/-- The beans of components that a module uses. -/
def placeholderNames (root : ModuleDecl) (components : List ModuleDecl) : List QualifiedName :=
  root.componentTargets (isProvidedBy components)

/-- The module with each bean of a component that it uses as an optional socket. -/
def withPlaceholders (root : ModuleDecl) (components : List ModuleDecl) : ModuleDecl :=
  { root with
    sockets := root.sockets ++ (placeholderNames root components).map fun name =>
      ⟨name, false⟩ }

/-! ## Providers behind a bean -/

/-- A component together with the import that brings it in. -/
structure Plugged where
  imported : Import
  component : ModuleDecl
deriving Inhabited

/-- The written names that a written name leads to in a component: the targets of the bean. -/
def ModuleDecl.targetsOf (m : ModuleDecl) (written : String) : List String :=
  match m.beans.find? (·.name.rendered == written) with
  | some bean => bean.dependencies.map (·.target.rendered)
  | none => []

/-- The written names that a bean of a component reaches through dependencies, its own included. -/
def ModuleDecl.reachedFrom (m : ModuleDecl) (name : QualifiedName) : List String :=
  Reach.fromAny m.targetsOf (m.beans.map (·.name.rendered)) [name.rendered]

/-- What is plugged into the sockets that a bean of a component reaches: the local name of the
socket and the provider, in the order of the sockets. -/
def providersBehind (imported : Import) (component : ModuleDecl) (name : QualifiedName) :
    List (String × QualifiedName) :=
  let reached := component.reachedFrom name
  (component.sockets.filter fun socket => socket.name.rendered ∈ reached).filterMap fun socket =>
    (imported.bindings.get? socket.name.localPart).map (socket.name.localPart, ·)

/-! ## The view across the boundary -/

/-- The first component with the module name of a bean. -/
def componentOf? (components : List Plugged) (name : QualifiedName) : Option Plugged :=
  components.find? (·.component.name == name.modulePart)

/-- The bean that stands for a bean of a component. -/
def standIn? (components : List Plugged) (name : QualifiedName) : Option Bean := do
  let plugged ← componentOf? components name
  if (plugged.component.bean? name).isNone then none
  let providers := providersBehind plugged.imported plugged.component name
  return {
    name
    dependencies := providers.map fun (socket, provider) =>
      { target := provider, label := socket } }

/-- The beans that stand for the beans of components that a module uses. -/
def standIns (root : ModuleDecl) (components : List Plugged) : List Bean :=
  (root.componentTargets fun name => (standIn? components name).isSome).filterMap
    (standIn? components)

/-- The module with each bean of a component that it uses as a bean that depends on what is
plugged into the component. -/
def withStandIns (root : ModuleDecl) (components : List Plugged) : ModuleDecl :=
  { root with beans := root.beans ++ standIns root components }

/-- The cycles that run through components. -/
def crossingCycles (root : ModuleDecl) (components : List Plugged) : List Cycle :=
  if components.isEmpty then [] else (Graph.build (withStandIns root components)).cycles

/-- Checks that no cycle runs through a component. Only the messages at the module's own
declarations are kept. -/
def checkCrossing (root : ModuleDecl) (components : List Plugged) : Except ModuleFault Unit :=
  let cycles := crossingCycles root components
  if cycles.isEmpty then .ok ()
  else
    .error (.cycles root.name ((diagnoseCycles root.name cycles).filter fun diagnostic =>
      diagnostic.anchor.modulePart == root.name))

end Injection
