import Injection.Options
import Injection.Cycle.Diagram
import Injection.Descriptor
import Injection.Schedule
import Injection.Validation

/-!
# Resolving a module

A module is resolved as a whole or not at all: its declarations are validated, its graph is built,
and either every cycle of the graph is reported or the order of instantiation is fixed.

## Main definitions

* `Resolved` — a module with its graph and order.
* `resolve` — resolves a module.
* `Resolved.instantiation`, `Resolved.destruction`, `Resolved.bean?` — what is known of it.
-/

namespace Injection

/-- A module whose graph has no cycle. -/
structure Resolved where
  version : UInt32
  graph : Graph
  /-- The nodes in the order in which they come into being. -/
  order : List Nat
  /-- The descriptor, unless the options forbid it. -/
  descriptor? : Option Descriptor
deriving Inhabited

namespace Resolved

def home (resolved : Resolved) : ModuleName := resolved.graph.home

/-- The names of all nodes in the order in which they come into being. -/
def orderNames (resolved : Resolved) : List QualifiedName :=
  resolved.order.map resolved.graph.nameAt

/-- The beans, dependencies first. -/
def instantiation (resolved : Resolved) : List Bean := resolved.graph.beansOf resolved.order

/-- The beans, dependents first. -/
def destruction (resolved : Resolved) : List Bean := resolved.instantiation.reverse

def bean? (resolved : Resolved) (name : QualifiedName) : Option Bean := resolved.graph.bean? name

end Resolved

/-- Resolves a module. -/
def resolve (options : Options) (m : ModuleDecl) : Except ModuleFault Resolved := do
  m.validate
  let graph := Graph.build m
  let cycles := graph.cycles
  if !cycles.isEmpty then throw (.cycles m.name (diagnoseCycles m.name cycles))
  match graph.schedule? with
  | none => throw (.cycles m.name [])
  | some order =>
    let descriptor? :=
      if options.generateDescriptor then some (.describe m.version graph order) else none
    return { version := m.version, graph, order, descriptor? }

end Injection
