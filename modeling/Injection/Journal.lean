import Injection.Composition

/-!
# The journal

What the compiler tells about its work, as events in the order in which they happen. The events of
a step are a function of what the step is given; the step itself knows nothing of them.

## Main definitions

* `Event` — the events, with `Event.level`, `Event.message` and `Event.fields`.
* `Journal.ofBuild`, `Journal.ofSearch`, `Journal.ofResolution` — the events of one module.
* `Journal.ofComposition` — the events of a composition.
-/

namespace Injection

/-- How much an event matters. -/
inductive Level where
  | debug
  | info
  | warn
deriving DecidableEq, Inhabited

/-- The word for a level. -/
def Level.word : Level → String
  | debug => "debug"
  | info => "info"
  | warn => "warn"

/-- Something that the compiler tells about its work. -/
inductive Event where
  /-- A declaration repeats a name and gets no node. -/
  | repeatedDeclaration (name : QualifiedName)
  /-- A dependency on a name without a node gets no edge. -/
  | skippedDependency (bean target : QualifiedName)
  /-- An edge of a graph. -/
  | edge (wire : Wire)
  /-- A cycle, by its length and its first node. -/
  | cycleFound (length : Nat) (start : String)
  /-- The search for cycles is at its end. -/
  | searchFinished (home : ModuleName) (cycles : Nat)
  /-- A module cannot be resolved for its cycles. -/
  | moduleCyclic (cycles diagnostics : Nat)
  /-- A module is resolved. -/
  | moduleResolved (verbose : Bool) (beans nodes edges : Nat)
  /-- An import does not count. -/
  | importSkipped (component : ModuleName) (excluded notIncluded : Bool)
  /-- An import repeats one that counts. -/
  | importRepeated (component : ModuleName)
  /-- A bean of a component gets a placeholder. -/
  | placeholderAdded (name : QualifiedName)
  /-- Cycles run through a component. -/
  | boundaryCyclic (cycles : Nat)
  /-- A module of a composition failed. -/
  | moduleFailed (home : ModuleName) (error : CompositionFault)
  /-- A composition is at its end. -/
  | compositionFinished (modules failed : Nat)

namespace Event

def level : Event → Level
  | repeatedDeclaration .. => .warn
  | skippedDependency .. => .warn
  | edge .. => .debug
  | cycleFound .. => .debug
  | searchFinished .. => .debug
  | moduleCyclic .. => .warn
  | moduleResolved verbose .. => if verbose then .info else .debug
  | importSkipped .. => .debug
  | importRepeated .. => .warn
  | placeholderAdded .. => .debug
  | boundaryCyclic .. => .debug
  | moduleFailed .. => .warn
  | compositionFinished .. => .info

def message : Event → String
  | repeatedDeclaration .. => "duplicate declaration; keeping the first one"
  | skippedDependency .. => "dependency target is not declared in module; edge skipped"
  | edge .. => "edge"
  | cycleFound .. => "cycle found"
  | searchFinished .. => "cycle detection finished"
  | moduleCyclic .. => "module has dependency cycles"
  | moduleResolved .. => "module resolved"
  | importSkipped .. => "import skipped"
  | importRepeated .. => "module imported more than once"
  | placeholderAdded .. => "component bean presented as socket"
  | boundaryCyclic .. => "cycle through component module"
  | moduleFailed _ error => error.message
  | compositionFinished .. => "composition finished"

/-- The particulars of an event. -/
def fields : Event → List (String × Value)
  | repeatedDeclaration name => [("node", name.toValue)]
  | skippedDependency bean target => [("bean", bean.toValue), ("target", target.toValue)]
  | edge wire =>
    [("from", wire.source.toValue), ("to", wire.target.toValue), ("label", .text wire.label),
      ("nested", .bool wire.nested)]
  | cycleFound length start => [("length", .ofNat length), ("start", .text start)]
  | searchFinished home cycles => [("module", .text home), ("cycles", .ofNat cycles)]
  | moduleCyclic cycles diagnostics =>
    [("cycles", .ofNat cycles), ("diagnostics", .ofNat diagnostics)]
  | moduleResolved _ beans nodes edges =>
    [("beans", .ofNat beans), ("nodes", .ofNat nodes), ("edges", .ofNat edges)]
  | importSkipped component excluded notIncluded =>
    [("import", .text component), ("excluded", .bool excluded), ("not_included", .bool notIncluded)]
  | importRepeated component => [("import", .text component)]
  | placeholderAdded name => [("component_bean", name.toValue)]
  | boundaryCyclic cycles => [("cycles", .ofNat cycles)]
  | moduleFailed home error =>
    [("failed", .text home), ("code", .text error.code.identifier)] ++
      (error.code.hint?.map fun hint => ("hint", Value.text hint)).toList
  | compositionFinished modules failed => [("modules", .ofNat modules), ("failed", .ofNat failed)]

def toValue (event : Event) : Value :=
  .object [("level", .text event.level.word), ("message", .text event.message),
    ("fields", .object event.fields)]

end Event

namespace Journal

/-! ## Building a graph -/

/-- The names that are written like one before them, or like one in `seen`. -/
def repeatedNames (seen : List String) : List QualifiedName → List QualifiedName
  | [] => []
  | name :: rest =>
    if name.rendered ∈ seen then name :: repeatedNames seen rest
    else repeatedNames (name.rendered :: seen) rest

/-- A graph that grows, with the events up to now. -/
abbrev Growing := Graph × List Event

def addDependency (bean : QualifiedName) (source : Nat) (growing : Growing)
    (dependency : Dependency) : Growing :=
  let (g, events) := growing
  if (g.indexOf? dependency.target).isNone then
    (g, events ++ [.skippedDependency bean dependency.target])
  else (g.addDependency source dependency, events)

def addBean (growing : Growing) (bean : Bean) : Growing :=
  match growing.1.indexOf? bean.name with
  | none => growing
  | some source => bean.dependencies.foldl (addDependency bean.name source) growing

/-- The events of building the graph of a module. -/
def ofBuild (m : ModuleDecl) : List Event :=
  (repeatedNames [] m.declaredNames).map .repeatedDeclaration ++
    (m.beans.foldl addBean (Graph.ofDeclarations m, [])).2

/-! ## Resolving a module -/

/-- The events of the search for cycles, none where no node is on a cycle. -/
def ofSearch (g : Graph) : List Event :=
  if g.isCyclic then
    let cycles := g.cycles
    cycles.map (fun cycle =>
      .cycleFound cycle.length ((cycle.names.head?.map (·.rendered)).getD "")) ++
      [.searchFinished g.home cycles.length]
  else []

/-- The last event of resolving a sound module. -/
def ofVerdict (options : Options) (m : ModuleDecl) (g : Graph) : List Event :=
  match resolve options m with
  | .ok resolved =>
    [.moduleResolved options.verbose resolved.instantiation.length g.order g.edges.length]
  | .error (.cycles _ diagnostics) =>
    let cycles := g.cycles
    if cycles.isEmpty then [] else [.moduleCyclic cycles.length diagnostics.length]
  | .error _ => []

/-- The events of resolving a module. -/
def ofResolution (options : Options) (m : ModuleDecl) : List Event :=
  match m.validate with
  | .error _ => []
  | .ok _ =>
    let g := Graph.build m
    ofBuild m ++ (if options.debug then g.wires.map .edge else []) ++ ofSearch g ++
      ofVerdict options m g

/-! ## Composing modules -/

/-- The events of selecting imports, `seen` holding the components selected before. -/
def ofSelection (m : ModuleDecl) (seen : List ModuleName) : List Import → List Event
  | [] => []
  | imported :: rest =>
    let component := imported.component
    if !m.admits component then
      .importSkipped component (m.isExcluded component) (m.isNotIncluded component) ::
        ofSelection m seen rest
    else if component ∈ seen then .importRepeated component :: ofSelection m seen rest
    else ofSelection m (component :: seen) rest

/-- The events of the check for cycles that run through components. -/
def ofBoundary (root : ModuleDecl) (components : List Plugged) : List Event :=
  if components.isEmpty then []
  else
    let view := withStandIns root components
    let cycles := crossingCycles root components
    ofBuild view ++ ofSearch (Graph.build view) ++
      (if cycles.isEmpty then [] else [.boundaryCyclic cycles.length])

/-- The events of resolving a root into which some components are plugged. -/
def ofRoot (options : Options) (root : ModuleDecl) (components : List Plugged) : List Event :=
  (placeholderNames root (components.map (·.component))).map .placeholderAdded ++
    ofResolution options (prepared root components) ++
    (if (resolve options (prepared root components)).isOk then ofBoundary root components else [])

/-- The events of a composition. -/
def ofComposition (options : Options) (root : ModuleDecl) (available : List ModuleDecl) :
    List Event :=
  let components := pluggedIn options root available
  let report := compose options root available
  ofSelection root [] root.imports ++
    components.flatMap (fun plugged => ofResolution options plugged.component) ++
    ofRoot options root components ++
    report.faults.map (fun (home, error) => .moduleFailed home error) ++
    (if options.verbose then
      [.compositionFinished report.outcomes.length report.faults.length] else [])

end Journal

end Injection
