import Injection.Graph

/-!
# Instantiation order

The order in which the nodes of a graph come into being: a node becomes ready when all that it
depends on is there, and of the ready nodes the one with the lowest number comes next. Nodes on a
cycle, and all that depends on them, never become ready.

## Main definitions

* `Schedule` — how far the order has come: open edges of each node, ready nodes, nodes emitted.
* `Schedule.next?` — emits the lowest ready node.
* `Graph.schedule?` — the order of all nodes, if there is one.
-/

namespace Injection

/-- How far the order has come. -/
structure Schedule where
  /-- For each node, how many edges lead to nodes that are not there yet. -/
  pending : List Nat
  /-- The nodes without such edges that are not there yet, in ascending order. -/
  ready : List Nat
  /-- The nodes that are there, the last one first. -/
  emitted : List Nat
deriving Inhabited

namespace Schedule

/-- The list in ascending order with one more number in it. -/
def insertReady (node : Nat) : List Nat → List Nat
  | [] => [node]
  | head :: rest => if node ≤ head then node :: head :: rest else head :: insertReady node rest

/-- One edge less is open at a node; it becomes ready with its last one. -/
def release (schedule : Schedule) (node : Nat) : Schedule :=
  let pending := schedule.pending.modify node (· - 1)
  if pending[node]? = some 0 then
    { schedule with pending, ready := insertReady node schedule.ready }
  else { schedule with pending }

/-- The schedule before any node is there. -/
def initial (g : Graph) : Schedule where
  pending := (List.range g.order).map fun node => (g.edgesFrom node).length
  ready := (List.range g.order).filter fun node => (g.edgesFrom node).isEmpty
  emitted := []

/-- Emits the lowest ready node and releases the nodes that depend on it, once for each edge. -/
def next? (g : Graph) (schedule : Schedule) : Option Schedule :=
  match schedule.ready with
  | [] => none
  | node :: ready =>
    some ((g.dependents node).foldl release
      { schedule with ready, emitted := node :: schedule.emitted })

/-- The schedule after at most a number of nodes. -/
def run (g : Graph) : Nat → Schedule → Schedule
  | 0, schedule => schedule
  | steps + 1, schedule =>
    match next? g schedule with
    | none => schedule
    | some after => run g steps after

end Schedule

/-- The nodes in the order in which they come into being, unless some never become ready. -/
def Graph.schedule? (g : Graph) : Option (List Nat) :=
  let emitted := (Schedule.run g g.order (.initial g)).emitted.reverse
  if emitted.length = g.order then some emitted else none

end Injection
