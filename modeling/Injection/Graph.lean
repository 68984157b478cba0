import Injection.Declaration

/-!
# Dependency graphs

The graph of a module has a node for each bean and each socket, and an edge from each bean to what
it depends on. A nested dependency leads to the last member that it navigates: each member on its
path is a node of its own, a hop, whose only edge goes to the member before it or to the owner.

Nodes are numbered in the order in which they are added. A name has one node; a later declaration
of the same name adds none.

## Main definitions

* `Node`, `Edge`, `Graph` — the graph, its edges between node numbers.
* `Graph.build` — the graph of a module.
* `Graph.indexOf?`, `Graph.edgesFrom`, `Graph.dependents` — looking at a graph.
* `Wire`, `Graph.wires` — the edges between names.
-/

namespace Injection

/-! ## Nodes and edges -/

/-- A node of a dependency graph. -/
inductive Node where
  | bean (bean : Bean)
  | socket (socket : Socket)
  /-- The member reached from `owner` by navigating `path`. -/
  | hop (owner : QualifiedName) (path : List String)
deriving Inhabited

namespace Node

def name : Node → QualifiedName
  | bean b => b.name
  | socket s => s.name
  | hop owner path => owner.member path

def bean? : Node → Option Bean
  | bean b => some b
  | _ => none

def socket? : Node → Option Socket
  | socket s => some s
  | _ => none

/-- Whether a hop is attached directly to its owner. -/
def isDirectMember : Node → Bool
  | hop _ path => path.length == 1
  | _ => false

/-- Whether a cycle through a node is reported there: at beans and at first hops, since a deeper
hop has no declaration of its own. -/
def anchorsReports : Node → Bool
  | bean _ => true
  | socket _ => false
  | hop _ path => path.length == 1

end Node

/-- A dependency between two nodes, given by their numbers. -/
structure Edge where
  source : Nat
  target : Nat
  label : String
  /-- Whether the edge leads from a hop to what it is a member of. -/
  nested : Bool
deriving DecidableEq, Inhabited

/-- A dependency between two names. -/
structure Wire where
  source : QualifiedName
  target : QualifiedName
  label : String
  nested : Bool
deriving BEq, Inhabited

/-- The dependency graph of a module. -/
structure Graph where
  home : ModuleName
  /-- The nodes in the order of their numbers. -/
  nodes : List Node
  /-- The edges in the order in which they were added. -/
  edges : List Edge
deriving Inhabited

namespace Graph

/-- The label of the edge that leaves a hop. -/
def nestedLabel : String := "(nested)"

/-! ## Looking at a graph -/

/-- The number of the node with a name. -/
def indexOf? (g : Graph) (name : QualifiedName) : Option Nat :=
  g.nodes.findIdx? (·.name == name)

def node? (g : Graph) (name : QualifiedName) : Option Node :=
  g.nodes.find? (·.name == name)

def bean? (g : Graph) (name : QualifiedName) : Option Bean :=
  (g.node? name).bind Node.bean?

/-- How many nodes there are. -/
def order (g : Graph) : Nat := g.nodes.length

/-- The name of the node with a number. -/
def nameAt (g : Graph) (index : Nat) : QualifiedName :=
  (g.nodes[index]?.map Node.name).getD default

/-- The edges that leave a node, in order. -/
def edgesFrom (g : Graph) (index : Nat) : List Edge :=
  g.edges.filter (·.source == index)

/-- The edges that reach a node, in order. -/
def edgesInto (g : Graph) (index : Nat) : List Edge :=
  g.edges.filter (·.target == index)

/-- The nodes that depend on a node, one for each edge. -/
def dependents (g : Graph) (index : Nat) : List Nat :=
  (g.edgesInto index).map (·.source)

/-- The edges between names, in order. -/
def wires (g : Graph) : List Wire :=
  g.edges.map fun e => ⟨g.nameAt e.source, g.nameAt e.target, e.label, e.nested⟩

/-! ## Building -/

def pushNode (g : Graph) (node : Node) : Graph := { g with nodes := g.nodes ++ [node] }

def pushEdge (g : Graph) (edge : Edge) : Graph := { g with edges := g.edges ++ [edge] }

/-- Adds a node, unless its name has one. -/
def addNode (g : Graph) (node : Node) : Graph :=
  if (g.indexOf? node.name).isSome then g else g.pushNode node

/-- The graph of the declared names: the beans, then the sockets, and no edges. -/
def ofDeclarations (m : ModuleDecl) : Graph :=
  (m.beans.map Node.bean ++ m.sockets.map Node.socket).foldl addNode ⟨m.name, [], []⟩

/-- Adds the hops that are missing on the way from `parent`, the node reached from `owner` by the
path `walked`, along further members. Gives the node of the last member too. -/
def addHops (g : Graph) (owner : QualifiedName) (parent : Nat) (walked : List String) :
    List String → Graph × Nat
  | [] => (g, parent)
  | segment :: rest =>
    let path := walked ++ [segment]
    match g.indexOf? (owner.member path) with
    | some hop => g.addHops owner hop path rest
    | none =>
      let hop := g.order
      let grown := (g.pushNode (.hop owner path)).pushEdge ⟨hop, parent, nestedLabel, true⟩
      grown.addHops owner hop path rest

/-- Adds the edge of a dependency of the node `source`, and the hops that it needs. A dependency
on a name without a node adds nothing. -/
def addDependency (source : Nat) (g : Graph) (dependency : Dependency) : Graph :=
  match g.indexOf? dependency.target with
  | none => g
  | some owner =>
    let (grown, target) := g.addHops dependency.target owner [] dependency.path
    grown.pushEdge ⟨source, target, dependency.label, false⟩

def addBean (g : Graph) (bean : Bean) : Graph :=
  match g.indexOf? bean.name with
  | none => g
  | some source => bean.dependencies.foldl (addDependency source) g

def build (m : ModuleDecl) : Graph := m.beans.foldl addBean (ofDeclarations m)

end Graph

end Injection
