import Injection.Cycle.Rotation
import Injection.Cycle.Search
import Injection.Distinct
import Injection.Graph.Component

/-!
# Cycles of dependencies

A cycle is a closed walk through different nodes. The cycles of a graph are listed in the order in
which they are found: the search starts at each node of a component in turn, lowest first, follows
edges in the order in which they were added, and leaves out nodes that it has started at before. A
cycle that differs from an earlier one only in where it starts, or in the choice between edges with
equal ends and labels, is not listed again.

## Main definitions

* `Cycle` — a cycle by its steps, with the names at which it is reported.
* `Graph.loops` — the cycles that the search finds, by their edges.
* `Graph.cycles` — the cycles of a graph.
-/

namespace Injection

/-- A node of a cycle and the edge from it to the next node. -/
structure Cycle.Step where
  node : QualifiedName
  label : String
  nested : Bool
deriving BEq, Inhabited

/-- A cycle. The edge of the last step leads back to the node of the first. -/
structure Cycle where
  steps : List Cycle.Step
  /-- The nodes at which the cycle is reported, in the order of the steps. -/
  anchors : List QualifiedName
deriving BEq, Inhabited

namespace Cycle

def length (cycle : Cycle) : Nat := cycle.steps.length

/-- The names of the nodes, from the point of discovery on. -/
def names (cycle : Cycle) : List QualifiedName := cycle.steps.map (·.node)

/-- Whether the cycle is a node that depends on itself. -/
def isSelfLoop (cycle : Cycle) : Bool := cycle.length == 1

def contains (cycle : Cycle) (name : QualifiedName) : Bool := cycle.names.any (· == name)

/-- The key of a cycle that is given by its edges. -/
def keyOf (loop : List Edge) : CycleKey := loop.map fun edge => (edge.source, edge.label)

end Cycle

namespace Graph

variable (g : Graph)

/-- Whether the search may follow an edge: it stays within a component and leads to no exhausted
node. -/
def follows (components : List (Option Nat)) (exhausted : List Nat) (edge : Edge) : Bool :=
  components[edge.source]? == components[edge.target]? && !exhausted.contains edge.target

theorem follows_eq_true_iff {components : List (Option Nat)} {exhausted : List Nat} {edge : Edge} :
    follows components exhausted edge = true ↔
      components[edge.source]? = components[edge.target]? ∧ edge.target ∉ exhausted := by
  simp [follows]

/-- The cycles that the search from a node finds. -/
def loopsFrom (components : List (Option Nat)) (exhausted : List Nat) (node : Nat) :
    List (List Edge) :=
  let edges := g.edges.filter (follows components exhausted)
  Search.loops g.order edges (Search.start edges node)

/-- The cycles that the searches from some nodes find, each without the nodes before it. -/
def loopsFromAll (components : List (Option Nat)) (exhausted : List Nat) :
    List Nat → List (List Edge)
  | [] => []
  | node :: rest =>
    g.loopsFrom components exhausted node ++ loopsFromAll components (node :: exhausted) rest

/-- The nodes that are on some cycle, in ascending order. -/
def cyclicNodes (components : List (Option Nat)) : List Nat :=
  (List.range g.order).filter fun node => (components[node]?.getD none).isSome

/-- The cycles of the graph by their edges, each once. -/
def loops : List (List Edge) :=
  let components := g.components
  distinctBy (fun loop => (Cycle.keyOf loop).canonical)
    (g.loopsFromAll components [] (g.cyclicNodes components))

/-- The cycle that is given by its edges. -/
def cycleOf (loop : List Edge) : Cycle where
  steps := loop.map fun edge => ⟨g.nameAt edge.source, edge.label, edge.nested⟩
  anchors := loop.filterMap fun edge =>
    (g.nodes[edge.source]?.filter Node.anchorsReports).map Node.name

/-- The cycles of the graph, in the order in which they are found. -/
def cycles : List Cycle := g.loops.map g.cycleOf

end Graph

end Injection
