import Injection.Proofs.Build

/-!
# Wiring by written names

What a graph says apart from the numbers of its nodes: which names have nodes, and which edges
there are between written names. Building can be followed on this level alone, where a member's
parent is simply the member before it, whatever node stands for it.

## Main definitions

* `Link`, `Graph.links` — the edges between written names.
* `Wiring` — the names that have nodes, and the links.
* `Wiring.build` — the wiring of a module, built without node numbers.

The wiring of the graph of a module is the wiring of the module.
-/

namespace Injection

/-- An edge between written names. -/
structure Link where
  source : String
  target : String
  label : String
  nested : Bool
deriving DecidableEq

def Wire.link (wire : Wire) : Link :=
  ⟨wire.source.rendered, wire.target.rendered, wire.label, wire.nested⟩

/-- The names that have nodes, and the edges between them. -/
structure Wiring where
  names : List String
  links : List Link

namespace Graph

variable {g : Graph}

def links (g : Graph) : List Link := g.wires.map Wire.link

def linkOf (g : Graph) (e : Edge) : Link :=
  ⟨(g.nameAt e.source).rendered, (g.nameAt e.target).rendered, e.label, e.nested⟩

theorem links_eq (g : Graph) : g.links = g.edges.map g.linkOf := by
  simp only [links, wires, List.map_map]
  rfl

/-- What a graph says apart from the numbers of its nodes. -/
def wiring (g : Graph) : Wiring := ⟨g.written, g.links⟩

theorem nameAt_pushNode {node : Node} {i : Nat} (h : i < g.order) :
    (g.pushNode node).nameAt i = g.nameAt i := by
  rw [nameAt, nameAt, pushNode, List.getElem?_append_left h]

theorem Sound.wiring_pushNode (hs : g.Sound) (node : Node) :
    (g.pushNode node).wiring = ⟨g.written ++ [node.name.rendered], g.links⟩ := by
  rw [wiring, written_pushNode, links_eq, links_eq, edges_pushNode]
  congr 1
  apply List.map_congr_left
  intro e he
  simp only [linkOf]
  rw [nameAt_pushNode (hs.source_lt e he), nameAt_pushNode (hs.target_lt e he)]

theorem wiring_pushEdge (g : Graph) (edge : Edge) :
    (g.pushEdge edge).wiring = ⟨g.written, g.links ++ [g.linkOf edge]⟩ := by
  rw [wiring, written_pushEdge, links_eq, links_eq, edges_pushEdge, List.map_append]
  rfl

end Graph

/-! ## Building by names -/

namespace Wiring

def addName (w : Wiring) (name : String) : Wiring :=
  if name ∈ w.names then w else { w with names := w.names ++ [name] }

/-- Adds the hops that are missing on the way from a member along further members. -/
def addHops (w : Wiring) (owner : QualifiedName) (walked : List String) : List String → Wiring
  | [] => w
  | segment :: rest =>
    let name := (owner.member (walked ++ [segment])).rendered
    if name ∈ w.names then w.addHops owner (walked ++ [segment]) rest
    else
      addHops ⟨w.names ++ [name],
          w.links ++ [⟨name, (owner.member walked).rendered, Graph.nestedLabel, true⟩]⟩
        owner (walked ++ [segment]) rest

/-- The link of a dependency. -/
def linkTo (source : String) (dependency : Dependency) : Link :=
  ⟨source, (dependency.target.member dependency.path).rendered, dependency.label, false⟩

/-- Adds the link of a dependency, and the hops that it needs. -/
def addDependency (source : String) (w : Wiring) (dependency : Dependency) : Wiring :=
  if dependency.target.rendered ∈ w.names then
    let grown := w.addHops dependency.target [] dependency.path
    ⟨grown.names, grown.links ++ [linkTo source dependency]⟩
  else w

def addBean (w : Wiring) (bean : Bean) : Wiring :=
  bean.dependencies.foldl (addDependency bean.name.rendered) w

/-- The declared names, each once. -/
def ofDeclarations (m : ModuleDecl) : Wiring :=
  (m.declaredNames.map QualifiedName.rendered).foldl addName ⟨[], []⟩

def build (m : ModuleDecl) : Wiring := m.beans.foldl addBean (ofDeclarations m)

end Wiring

/-! ## Building graphs and building by names -/

namespace Graph

open Relation

variable {g : Graph}

theorem wiring_addNode (hs : g.Sound) (node : Node) :
    (g.addNode node).wiring = g.wiring.addName node.name.rendered := by
  unfold addNode Wiring.addName
  have hiff : (g.indexOf? node.name).isSome = true ↔ node.name.rendered ∈ g.wiring.names := by
    rw [Option.isSome_iff_ne_none, Ne, indexOf?_eq_none_iff, not_not]
    rfl
  split
  · next h => rw [if_pos (hiff.mp h)]
  · next h =>
    rw [if_neg (mt hiff.mpr h), hs.wiring_pushNode]
    rfl

/-- A new hop adds its name and the link to the member before it. -/
theorem Sound.wiring_pushHop (hs : g.Sound) {owner : QualifiedName} {parent : Nat}
    {walked : List String} {segment : String}
    (hfresh : g.indexOf? (owner.member (walked ++ [segment])) = none)
    (hparent : g.indexOf? (owner.member walked) = some parent) :
    ((g.pushNode (.hop owner (walked ++ [segment]))).pushEdge
        ⟨g.order, parent, nestedLabel, true⟩).wiring =
      ⟨g.wiring.names ++ [(owner.member (walked ++ [segment])).rendered],
        g.wiring.links ++ [⟨(owner.member (walked ++ [segment])).rendered,
          (owner.member walked).rendered, nestedLabel, true⟩]⟩ := by
  have hpushed := hs.wiring_pushNode (.hop owner (walked ++ [segment]))
  have hgrown := (Grows.hop hfresh hparent).sound hs
  have hsource := hgrown.rendered_nameAt (indexOf?_pushHop hgrown)
  have htarget := hs.rendered_nameAt hparent
  rw [← nameAt_pushNode (hs.lt_of_indexOf? hparent)] at htarget
  rw [wiring_pushEdge, linkOf, htarget]
  exact congrArg₂ Wiring.mk (congrArg Wiring.names hpushed)
    (congrArg₂ (· ++ [·]) (congrArg Wiring.links hpushed)
      (congrArg (Link.mk · _ _ _) hsource))

theorem wiring_addHops {owner : QualifiedName} {parent : Nat} {walked : List String}
    (hs : g.Sound) (hparent : g.indexOf? (owner.member walked) = some parent)
    (rest : List String) :
    (g.addHops owner parent walked rest).1.wiring = g.wiring.addHops owner walked rest := by
  induction rest generalizing g parent walked with
  | nil => rfl
  | cons segment rest ih =>
    rw [addHops, Wiring.addHops]
    split
    · next hop hhop =>
      have hmem : (owner.member (walked ++ [segment])).rendered ∈ g.wiring.names :=
        List.mem_of_getElem? (hs.indexOf?_eq_some_iff.mp hhop)
      rw [if_pos hmem]
      exact ih hs hhop
    · next hnone =>
      have hnew : (owner.member (walked ++ [segment])).rendered ∉ g.wiring.names :=
        indexOf?_eq_none_iff.mp hnone
      have hgrown := (Grows.hop hnone hparent).sound hs
      rw [if_neg hnew, ← hs.wiring_pushHop hnone hparent]
      exact ih hgrown (indexOf?_pushHop hgrown)

theorem wiring_addDependency {source : Nat} {bean : QualifiedName} {dependency : Dependency}
    (hs : g.Sound) (hsource : g.indexOf? bean = some source) :
    (g.addDependency source dependency).wiring =
      g.wiring.addDependency bean.rendered dependency := by
  unfold addDependency Wiring.addDependency
  split
  · next hnone => rw [if_neg (show _ ∉ g.wiring.names from indexOf?_eq_none_iff.mp hnone)]
  · next owner howner =>
    have hmem : dependency.target.rendered ∈ g.wiring.names :=
      List.mem_of_getElem? (hs.indexOf?_eq_some_iff.mp howner)
    have hstart : g.indexOf? (dependency.target.member []) = some owner := howner
    obtain ⟨hgrows, hlast⟩ := grows_addHops hs hstart dependency.path
    have hwiring := wiring_addHops hs hstart dependency.path
    have hsound := sound_of_grows hgrows hs
    rw [if_pos hmem, wiring_pushEdge, linkOf, ← hwiring,
      hsound.rendered_nameAt (indexOf?_of_grows hgrows hsource), hsound.rendered_nameAt hlast]
    rfl

/-- Both ways of building agree on a list of items, if they agree on each. -/
theorem wiring_foldl {α : Type} {items : List α} {f : Graph → α → Graph}
    {f' : Wiring → α → Wiring} {P : Graph → Prop}
    (hkept : ∀ g g', ReflTransGen Grows g g' → P g → P g')
    (hitem : ∀ g, g.Sound → P g → ∀ a ∈ items,
      ReflTransGen Grows g (f g a) ∧ (f g a).wiring = f' g.wiring a)
    (hs : g.Sound) (hg : P g) : (items.foldl f g).wiring = items.foldl f' g.wiring := by
  induction items generalizing g with
  | nil => rfl
  | cons a rest ih =>
    obtain ⟨hgrows, hwiring⟩ := hitem g hs hg a List.mem_cons_self
    rw [List.foldl_cons, List.foldl_cons, ← hwiring]
    refine ih (fun g' hs' hg' b hb => ?_) (sound_of_grows hgrows hs) (hkept g _ hgrows hg)
    exact hitem g' hs' hg' b (List.mem_cons_of_mem a hb)

theorem wiring_addBean {bean : Bean} (hs : g.Sound) (hb : g.HasBean bean.name) :
    (g.addBean bean).wiring = g.wiring.addBean bean := by
  obtain ⟨source, b, hi, hn⟩ := hb
  rw [addBean, hi]
  exact wiring_foldl
    (P := fun g => g.indexOf? bean.name = some source ∧ g.nodes[source]? = some (.bean b))
    (fun _ _ h hp => ⟨indexOf?_of_grows h hp.1, getElem?_nodes_of_grows h hp.2⟩)
    (fun _ hs hp _ _ => ⟨grows_addDependency hs hp.2, wiring_addDependency hs hp.1⟩)
    hs ⟨hi, hn⟩

/-- The nodes of the declarations bear the declared names. -/
theorem map_name_declarations (m : ModuleDecl) :
    (m.beans.map Node.bean ++ m.sockets.map Node.socket).map (·.name.rendered) =
      m.declaredNames.map QualifiedName.rendered := by
  simp only [ModuleDecl.declaredNames, List.map_append, List.map_map]
  rfl

theorem wiring_ofDeclarations (m : ModuleDecl) :
    (ofDeclarations m).wiring = Wiring.ofDeclarations m := by
  have hdeclared : ∀ node ∈ m.beans.map Node.bean ++ m.sockets.map Node.socket,
      node.isHop = false := by
    simp [or_imp, forall_and]
  rw [ofDeclarations, Wiring.ofDeclarations, ← map_name_declarations, List.foldl_map]
  exact wiring_foldl (P := fun _ => True) (fun _ _ _ _ => trivial)
    (fun _ hs _ node hn => ⟨grows_addNode (hdeclared node hn), wiring_addNode hs node⟩)
    (sound_empty m.name) trivial

/-- The wiring of the graph of a module is the wiring of the module. -/
theorem wiring_build (m : ModuleDecl) : (build m).wiring = Wiring.build m := by
  have hsound := sound_of_grows (grows_ofDeclarations m) (sound_empty m.name)
  rw [build, Wiring.build, ← wiring_ofDeclarations]
  exact wiring_foldl (P := fun g => ∀ bean ∈ m.beans, g.HasBean bean.name)
    (fun _ _ h hb bean hm => (hb bean hm).of_grows h)
    (fun _ hs hb bean hm => ⟨grows_addBean hs (hb bean hm), wiring_addBean hs (hb bean hm)⟩)
    hsound fun _ hb => hasBean_ofDeclarations hb

end Graph

end Injection
