import Injection.Graph
import Injection.Reach

/-!
# Cyclic components

Two nodes are in one component when each reaches the other by at least one edge. A node that does
not reach itself is on no cycle and in no component. A component is known by its lowest node.

## Main definitions

* `Graph.reached` — the nodes reached from a node by at least one edge.
* `Graph.components` — for each node the lowest node of its component.
* `Graph.isCyclic` — whether there is a component at all.
-/

namespace Injection.Graph

variable (g : Graph)

/-- The nodes that a node depends on, one for each edge. -/
def successors (index : Nat) : List Nat := (g.edgesFrom index).map (·.target)

/-- The nodes that a node reaches by at least one edge. -/
def reached (index : Nat) : List Nat :=
  Reach.fromAny g.successors (List.range g.order) (g.successors index)

/-- For each node that reaches itself the lowest node that it reaches and that reaches it, given
what each node reaches. -/
def leaders (reached : List (List Nat)) : List (Option Nat) :=
  reached.mapIdx fun i fromI =>
    if i ∈ fromI then
      (reached.mapIdx (·, ·)).findSome? fun (j, fromJ) =>
        if j ∈ fromI && i ∈ fromJ then some j else none
    else none

/-- The nodes that are reached by at least one edge, for each node, with the successors of a node
looked up in a table. -/
def reachedTable : List (List Nat) :=
  let table := ((List.range g.order).map g.successors).toArray
  let next (index : Nat) : List Nat := table[index]?.getD []
  (List.range g.order).map fun index => Reach.fromAny next (List.range g.order) (next index)

/-- The table makes no difference. -/
theorem reachedTable_eq : g.reachedTable = (List.range g.order).map g.reached := by
  have hnext : ∀ index ∈ List.range g.order,
      (((List.range g.order).map g.successors).toArray[index]?.getD []) = g.successors index := by
    intro index hi
    simp [List.mem_range.mp hi]
  refine List.map_congr_left fun index hi => ?_
  simp only [reached, Reach.fromAny, hnext index hi]
  exact Reach.visit_congr hnext _ _

/-- For each node the lowest node of its component, if it is on a cycle. -/
def components : List (Option Nat) := leaders g.reachedTable

/-- Whether some node depends on itself, directly or through others. -/
def isCyclic : Bool := g.components.any Option.isSome

end Injection.Graph
