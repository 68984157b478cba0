import Injection.Graph
import Mathlib.Data.List.Nodup
import Mathlib.Logic.Relation

/-!
# How graphs grow

Building a graph takes three kinds of steps: a declaration becomes a node, a hop becomes a node
with its edge, a dependency becomes an edge. What holds of every graph that is built is proved
of these steps.

## Main definitions

* `Graph.written` — the written names of the nodes.
* `Graph.Sound` — the names are different, and edges lead from nodes to nodes.
* `Graph.Grows` — the steps.

Every graph of a module is reached by steps from the empty graph, and is sound.
-/

namespace Injection

/-- Whether a node is a hop, and not declared. -/
def Node.isHop : Node → Bool
  | hop _ _ => true
  | _ => false

@[simp] theorem Node.isHop_bean (bean : Bean) : (Node.bean bean).isHop = false := rfl

@[simp] theorem Node.isHop_socket (socket : Socket) : (Node.socket socket).isHop = false := rfl

namespace Graph

open Relation

variable {g g' : Graph} {name : QualifiedName} {i : Nat}

/-! ## Written names -/

/-- The written names of the nodes, in the order of their numbers. -/
def written (g : Graph) : List String := g.nodes.map (·.name.rendered)

def empty (home : ModuleName) : Graph := ⟨home, [], []⟩

@[simp] theorem length_written (g : Graph) : g.written.length = g.order := by
  simp [written, order]

@[simp] theorem written_pushNode (g : Graph) (node : Node) :
    (g.pushNode node).written = g.written ++ [node.name.rendered] := by
  simp [written, pushNode]

@[simp] theorem written_pushEdge (g : Graph) (edge : Edge) :
    (g.pushEdge edge).written = g.written := rfl

@[simp] theorem order_pushNode (g : Graph) (node : Node) :
    (g.pushNode node).order = g.order + 1 := by
  simp [order, pushNode]

@[simp] theorem order_pushEdge (g : Graph) (edge : Edge) : (g.pushEdge edge).order = g.order := rfl

@[simp] theorem edges_pushNode (g : Graph) (node : Node) : (g.pushNode node).edges = g.edges := rfl

@[simp] theorem edges_pushEdge (g : Graph) (edge : Edge) :
    (g.pushEdge edge).edges = g.edges ++ [edge] := rfl

theorem indexOf?_eq (g : Graph) (name : QualifiedName) :
    g.indexOf? name = g.written.findIdx? (· == name.rendered) := by
  rw [written, List.findIdx?_map]
  rfl

theorem indexOf?_eq_none_iff : g.indexOf? name = none ↔ name.rendered ∉ g.written := by
  rw [indexOf?_eq, List.findIdx?_eq_none_iff]
  constructor
  · exact fun h hm => by simpa using h _ hm
  · intro h x hx
    refine beq_eq_false_iff_ne.mpr fun he => h (he ▸ hx)

theorem mem_written_of_indexOf? (h : g.indexOf? name = some i) : name.rendered ∈ g.written := by
  by_contra hno
  rw [indexOf?_eq_none_iff.mpr hno] at h
  cases h

theorem getElem?_written (h : i < g.order) : g.written[i]? = some (g.nameAt i).rendered := by
  have hi : g.nodes[i]? = some g.nodes[i] := List.getElem?_eq_getElem h
  simp [written, nameAt, hi]

/-! ## Soundness -/

/-- The names of the nodes are different from each other, and edges lead from nodes to nodes. -/
structure Sound (g : Graph) : Prop where
  distinct : g.written.Nodup
  source_lt : ∀ e ∈ g.edges, e.source < g.order
  target_lt : ∀ e ∈ g.edges, e.target < g.order

/-- In a sound graph a look-up finds the one place of a name. -/
theorem Sound.indexOf?_eq_some_iff (hs : g.Sound) :
    g.indexOf? name = some i ↔ g.written[i]? = some name.rendered := by
  rw [indexOf?_eq, List.findIdx?_eq_some_iff_getElem]
  constructor
  · rintro ⟨h, he, -⟩
    rw [List.getElem?_eq_getElem h, beq_iff_eq.mp he]
  · intro h
    obtain ⟨hi, he⟩ := List.getElem?_eq_some_iff.mp h
    refine ⟨hi, beq_iff_eq.mpr he, fun j hj => ?_⟩
    rw [Bool.not_eq_true, beq_eq_false_iff_ne]
    intro hje
    have : j = i := hs.distinct.getElem_inj_iff.mp (hje.trans he.symm)
    omega

theorem Sound.indexOf?_nameAt (hs : g.Sound) (h : i < g.order) :
    g.indexOf? (g.nameAt i) = some i :=
  hs.indexOf?_eq_some_iff.mpr (getElem?_written h)

theorem Sound.lt_of_indexOf? (hs : g.Sound) (h : g.indexOf? name = some i) : i < g.order := by
  obtain ⟨hi, -⟩ := List.getElem?_eq_some_iff.mp (hs.indexOf?_eq_some_iff.mp h)
  simpa using hi

theorem Sound.rendered_nameAt (hs : g.Sound) (h : g.indexOf? name = some i) :
    (g.nameAt i).rendered = name.rendered := by
  have hi := getElem?_written (hs.lt_of_indexOf? h)
  exact Option.some.inj (hi.symm.trans (hs.indexOf?_eq_some_iff.mp h))

theorem Sound.rendered_nameAt_inj (hs : g.Sound) {j : Nat} (hi : i < g.order) (hj : j < g.order)
    (h : (g.nameAt i).rendered = (g.nameAt j).rendered) : i = j := by
  have h1 := hs.indexOf?_eq_some_iff.mp (hs.indexOf?_nameAt hi)
  rw [h] at h1
  have h2 := hs.indexOf?_eq_some_iff.mpr h1
  exact (Option.some.inj ((hs.indexOf?_nameAt hj).symm.trans h2)).symm

/-- The number of a node is the place of its name. -/
theorem Sound.idxOf_nameAt (hs : g.Sound) (h : i < g.order) :
    g.written.idxOf (g.nameAt i).rendered = i := by
  have hi : i < g.written.length := by simpa using h
  have hname : g.written[i] = (g.nameAt i).rendered :=
    Option.some.inj ((List.getElem?_eq_getElem hi).symm.trans (getElem?_written h))
  rw [← hname, hs.distinct.idxOf_getElem i hi]

/-! ## Steps -/

/-- One step of building a graph. -/
inductive Grows : Graph → Graph → Prop
  /-- A declaration of a new name becomes a node. -/
  | declare {g : Graph} {node : Node} (hfresh : g.indexOf? node.name = none)
      (hdeclared : node.isHop = false) : Grows g (g.pushNode node)
  /-- A member without a node becomes one, with its edge to the member before it. -/
  | hop {g : Graph} {owner : QualifiedName} {walked : List String} {segment : String}
      {parent : Nat} (hfresh : g.indexOf? (owner.member (walked ++ [segment])) = none)
      (hparent : g.indexOf? (owner.member walked) = some parent) :
      Grows g ((g.pushNode (.hop owner (walked ++ [segment]))).pushEdge
        ⟨g.order, parent, nestedLabel, true⟩)
  /-- A dependency of a bean becomes an edge. -/
  | link {g : Graph} {source target : Nat} {bean : Bean} {label : String}
      (hsource : g.nodes[source]? = some (.bean bean)) (htarget : target < g.order) :
      Grows g (g.pushEdge ⟨source, target, label, false⟩)

theorem sound_empty (home : ModuleName) : (empty home).Sound := by
  constructor <;> simp [empty, written]

theorem Sound.pushNode (hs : g.Sound) (node : Node) (hfresh : g.indexOf? node.name = none) :
    (g.pushNode node).Sound := by
  refine ⟨?_, fun e he => ?_, fun e he => ?_⟩
  · rw [written_pushNode, List.nodup_append]
    refine ⟨hs.distinct, by simp, fun a ha b hb he => ?_⟩
    rw [List.mem_singleton.mp hb] at he
    exact indexOf?_eq_none_iff.mp hfresh (he ▸ ha)
  · rw [order_pushNode]
    exact Nat.lt_succ_of_lt (hs.source_lt e he)
  · rw [order_pushNode]
    exact Nat.lt_succ_of_lt (hs.target_lt e he)

theorem Sound.pushEdge (hs : g.Sound) {edge : Edge} (hsource : edge.source < g.order)
    (htarget : edge.target < g.order) : (g.pushEdge edge).Sound := by
  refine ⟨hs.distinct, fun e he => ?_, fun e he => ?_⟩ <;>
    rw [edges_pushEdge, List.mem_append, List.mem_singleton] at he
  · rcases he with he | rfl
    · exact hs.source_lt e he
    · exact hsource
  · rcases he with he | rfl
    · exact hs.target_lt e he
    · exact htarget

theorem Grows.sound (h : Grows g g') (hs : g.Sound) : g'.Sound := by
  cases h with
  | declare hfresh => exact hs.pushNode _ hfresh
  | @hop owner walked segment parent hfresh hparent =>
    have hlt := hs.lt_of_indexOf? hparent
    exact (hs.pushNode (.hop owner (walked ++ [segment])) hfresh).pushEdge
      (by simp) (by simp only [order_pushNode]; omega)
  | link hsource htarget =>
    exact hs.pushEdge (List.getElem?_eq_some_iff.mp hsource).1 htarget

theorem Grows.nodes_prefix (h : Grows g g') : g.nodes <+: g'.nodes := by
  cases h with
  | declare => exact List.prefix_append _ _
  | hop => exact List.prefix_append _ _
  | link => exact List.prefix_refl _

theorem sound_of_grows (h : ReflTransGen Grows g g') (hs : g.Sound) : g'.Sound := by
  induction h with
  | refl => exact hs
  | tail _ hstep ih => exact hstep.sound ih

theorem nodes_prefix_of_grows (h : ReflTransGen Grows g g') : g.nodes <+: g'.nodes := by
  induction h with
  | refl => exact List.prefix_refl _
  | tail _ hstep ih => exact ih.trans hstep.nodes_prefix

theorem indexOf?_of_grows (h : ReflTransGen Grows g g') (hi : g.indexOf? name = some i) :
    g'.indexOf? name = some i :=
  (nodes_prefix_of_grows h).findIdx?_eq_some hi

theorem getElem?_nodes_of_grows (h : ReflTransGen Grows g g') {node : Node}
    (hi : g.nodes[i]? = some node) : g'.nodes[i]? = some node := by
  obtain ⟨rest, hrest⟩ := nodes_prefix_of_grows h
  rw [← hrest, List.getElem?_append_left (List.getElem?_eq_some_iff.mp hi).1, hi]

/-- What is done for each item of a list is done by steps, if each item's part is, from every
sound graph with a property that steps keep. -/
theorem grows_foldl {α : Type} {items : List α} {f : Graph → α → Graph} {P : Graph → Prop}
    (hkept : ∀ g g', ReflTransGen Grows g g' → P g → P g')
    (hitem : ∀ g, g.Sound → P g → ∀ a ∈ items, ReflTransGen Grows g (f g a))
    (hs : g.Sound) (hg : P g) : ReflTransGen Grows g (items.foldl f g) := by
  induction items generalizing g with
  | nil => exact .refl
  | cons a rest ih =>
    have hfirst := hitem g hs hg a List.mem_cons_self
    refine hfirst.trans (ih ?_ (sound_of_grows hfirst hs) (hkept g _ hfirst hg))
    exact fun g' hs' hg' b hb => hitem g' hs' hg' b (List.mem_cons_of_mem a hb)

/-! ## Building by steps -/

/-- A new hop is the last node. -/
theorem indexOf?_pushHop {owner : QualifiedName} {path : List String} {edge : Edge}
    (hgrown : ((g.pushNode (.hop owner path)).pushEdge edge).Sound) :
    ((g.pushNode (.hop owner path)).pushEdge edge).indexOf? (owner.member path) =
      some g.order := by
  rw [hgrown.indexOf?_eq_some_iff, written_pushEdge, written_pushNode, ← length_written,
    List.getElem?_concat_length]
  rfl

/-- Missing hops are added by steps, and the last one is the node of the last member. -/
theorem grows_addHops {owner : QualifiedName} {parent : Nat} {walked : List String}
    (hs : g.Sound) (hparent : g.indexOf? (owner.member walked) = some parent)
    (rest : List String) : ReflTransGen Grows g (g.addHops owner parent walked rest).1 ∧
      (g.addHops owner parent walked rest).1.indexOf? (owner.member (walked ++ rest)) =
        some (g.addHops owner parent walked rest).2 := by
  induction rest generalizing g parent walked with
  | nil => exact ⟨.refl, by simpa [addHops] using hparent⟩
  | cons segment rest ih =>
    have hassoc : walked ++ segment :: rest = (walked ++ [segment]) ++ rest := by simp
    rw [hassoc, addHops]
    split
    · next hop hhop => exact ih hs hhop
    · next hnone =>
      have hstep : Grows g _ := .hop hnone hparent
      have hgrown := hstep.sound hs
      obtain ⟨hgrows, hlast⟩ := ih hgrown (indexOf?_pushHop hgrown)
      exact ⟨.head hstep hgrows, hlast⟩

theorem grows_addNode {node : Node} (hdeclared : node.isHop = false) :
    ReflTransGen Grows g (g.addNode node) := by
  unfold addNode
  split
  · exact .refl
  · next hfresh => exact .single (.declare (Option.not_isSome_iff_eq_none.mp hfresh) hdeclared)

theorem grows_addDependency {source : Nat} {bean : Bean} {dependency : Dependency}
    (hs : g.Sound) (hsource : g.nodes[source]? = some (.bean bean)) :
    ReflTransGen Grows g (g.addDependency source dependency) := by
  unfold addDependency
  split
  · exact .refl
  · next owner howner =>
    have hstart : g.indexOf? (dependency.target.member []) = some owner := howner
    obtain ⟨hgrows, hlast⟩ := grows_addHops hs hstart dependency.path
    have hkept := getElem?_nodes_of_grows hgrows hsource
    exact hgrows.tail (.link hkept ((sound_of_grows hgrows hs).lt_of_indexOf? hlast))

/-- A name's node is that of a bean. -/
def HasBean (g : Graph) (name : QualifiedName) : Prop :=
  ∃ i b, g.indexOf? name = some i ∧ g.nodes[i]? = some (.bean b)

theorem HasBean.of_grows (h : ReflTransGen Grows g g') (hb : g.HasBean name) : g'.HasBean name := by
  obtain ⟨i, b, hi, hn⟩ := hb
  exact ⟨i, b, indexOf?_of_grows h hi, getElem?_nodes_of_grows h hn⟩

theorem grows_addBean {bean : Bean} (hs : g.Sound) (hb : g.HasBean bean.name) :
    ReflTransGen Grows g (g.addBean bean) := by
  obtain ⟨i, b, hi, hn⟩ := hb
  rw [addBean, hi]
  exact grows_foldl (P := fun g => g.nodes[i]? = some (.bean b))
    (fun _ _ h hn => getElem?_nodes_of_grows h hn)
    (fun _ hs hn _ _ => grows_addDependency hs hn) hs hn

/-! ## Declarations -/

theorem grows_declarations {nodes : List Node}
    (hdeclared : ∀ node ∈ nodes, node.isHop = false) (hs : g.Sound) :
    ReflTransGen Grows g (nodes.foldl addNode g) :=
  grows_foldl (P := fun _ => True) (fun _ _ _ _ => trivial)
    (fun _ _ _ node hn => grows_addNode (hdeclared node hn)) hs trivial

theorem exists_indexOf?_addNode (g : Graph) (node : Node) :
    ∃ i, (g.addNode node).indexOf? node.name = some i := by
  unfold addNode
  split
  · next h => exact Option.isSome_iff_exists.mp h
  · refine Option.isSome_iff_exists.mp ?_
    rw [Option.isSome_iff_ne_none, Ne, indexOf?_eq_none_iff]
    simp

/-- The nodes of a graph to which only beans have been added are beans. -/
theorem mem_nodes_foldl_addNode {nodes : List Node} {node : Node}
    (h : node ∈ (nodes.foldl addNode g).nodes) : node ∈ g.nodes ∨ node ∈ nodes := by
  induction nodes generalizing g with
  | nil => exact .inl h
  | cons first rest ih =>
    rcases ih h with h | h
    · unfold addNode at h
      split at h
      · exact .inl h
      · rcases List.mem_append.mp h with h | h
        · exact .inl h
        · exact .inr (List.mem_singleton.mp h ▸ List.mem_cons_self)
    · exact .inr (List.mem_cons_of_mem _ h)

theorem exists_indexOf?_declarations {nodes : List Node}
    (hdeclared : ∀ node ∈ nodes, node.isHop = false) (hs : g.Sound) {node : Node}
    (h : node ∈ nodes) : ∃ i, (nodes.foldl addNode g).indexOf? node.name = some i := by
  induction nodes generalizing g with
  | nil => cases h
  | cons first rest ih =>
    have hgrows : ReflTransGen Grows g (g.addNode first) :=
      grows_addNode (hdeclared first List.mem_cons_self)
    have hsound := sound_of_grows hgrows hs
    have hrest : ∀ n ∈ rest, n.isHop = false := fun n hn => hdeclared n (List.mem_cons_of_mem _ hn)
    rw [List.foldl_cons]
    rcases List.mem_cons.mp h with he | h
    · obtain ⟨i, hi⟩ := exists_indexOf?_addNode g first
      rw [he]
      exact ⟨i, indexOf?_of_grows (grows_declarations hrest hsound) hi⟩
    · exact ih hrest hsound h

theorem grows_ofDeclarations (m : ModuleDecl) :
    ReflTransGen Grows (empty m.name) (ofDeclarations m) :=
  grows_declarations (by simp [or_imp, forall_and]) (sound_empty m.name)

/-- The name of a bean has the node of a bean, also if it is the name of a socket too. -/
theorem hasBean_ofDeclarations {m : ModuleDecl} {bean : Bean} (hb : bean ∈ m.beans) :
    (ofDeclarations m).HasBean bean.name := by
  have hbeans : ∀ node ∈ m.beans.map Node.bean, node.isHop = false := by simp
  have hsockets : ∀ node ∈ m.sockets.map Node.socket, node.isHop = false := by simp
  have hempty := sound_empty m.name
  have hsound := sound_of_grows (grows_declarations hbeans hempty) hempty
  obtain ⟨i, hi⟩ := exists_indexOf?_declarations hbeans hempty (List.mem_map_of_mem hb)
  rw [ofDeclarations, List.foldl_append]
  refine HasBean.of_grows (grows_declarations hsockets hsound) ?_
  have hlt := hsound.lt_of_indexOf? hi
  have hnode := List.getElem?_eq_getElem hlt
  rcases mem_nodes_foldl_addNode (List.mem_of_getElem? hnode) with h | h
  · cases h
  · obtain ⟨b, -, he⟩ := List.mem_map.mp h
    exact ⟨i, b, hi, hnode.trans (congrArg some he.symm)⟩

/-! ## Graphs of modules -/

theorem grows_beans (m : ModuleDecl) : ReflTransGen Grows (ofDeclarations m) (build m) :=
  grows_foldl (P := fun g => ∀ bean ∈ m.beans, g.HasBean bean.name)
    (fun _ _ h hb bean hm => (hb bean hm).of_grows h)
    (fun _ hs hb bean hm => grows_addBean hs (hb bean hm))
    (sound_of_grows (grows_ofDeclarations m) (sound_empty m.name)) fun _ hb =>
      hasBean_ofDeclarations hb

/-- The graph of a module comes about by steps. -/
theorem grows_build (m : ModuleDecl) : ReflTransGen Grows (empty m.name) (build m) :=
  (grows_ofDeclarations m).trans (grows_beans m)

theorem sound_build (m : ModuleDecl) : (build m).Sound :=
  sound_of_grows (grows_build m) (sound_empty m.name)

/-- What holds of the empty graph, and goes on to hold with every step from a sound graph, holds of
the graph of every module. -/
theorem build_induction {P : Graph → Prop} (m : ModuleDecl) (hempty : P (empty m.name))
    (hstep : ∀ g g', Grows g g' → g.Sound → P g → P g') : P (build m) := by
  have hreached : ∀ g, ReflTransGen Grows (empty m.name) g → P g := by
    intro g h
    induction h with
    | refl => exact hempty
    | tail h hgrows ih => exact hstep _ _ hgrows (sound_of_grows h (sound_empty m.name)) ih
  exact hreached _ (grows_build m)

theorem hasBean_build {m : ModuleDecl} {bean : Bean} (hb : bean ∈ m.beans) :
    (build m).HasBean bean.name :=
  (hasBean_ofDeclarations hb).of_grows (grows_beans m)

/-! ## Declared nodes -/

section Declared

variable {node : Node} (hnode : node.isHop = false)

include hnode

theorem mem_nodes_of_mem_addHops {owner : QualifiedName} {parent : Nat} {walked rest : List String}
    (h : node ∈ (g.addHops owner parent walked rest).1.nodes) : node ∈ g.nodes := by
  induction rest generalizing g parent walked with
  | nil => exact h
  | cons segment rest ih =>
    rw [addHops] at h
    split at h
    · exact ih h
    · rcases List.mem_append.mp (ih h) with h | h
      · exact h
      · rw [List.mem_singleton.mp h] at hnode
        cases hnode

theorem mem_nodes_of_mem_addDependency {source : Nat} {dependency : Dependency}
    (h : node ∈ (g.addDependency source dependency).nodes) : node ∈ g.nodes := by
  unfold addDependency at h
  split at h
  · exact h
  · exact mem_nodes_of_mem_addHops hnode h

omit hnode in
theorem mem_nodes_of_mem_foldl {α : Type} {items : List α} {f : Graph → α → Graph}
    (hitem : ∀ g a, node ∈ (f g a).nodes → node ∈ g.nodes) (h : node ∈ (items.foldl f g).nodes) :
    node ∈ g.nodes := by
  induction items generalizing g with
  | nil => exact h
  | cons a rest ih => exact hitem g a (ih h)

/-- A node that is not a hop is that of a declaration. -/
theorem mem_declarations_of_mem_nodes {m : ModuleDecl} (h : node ∈ (build m).nodes) :
    node ∈ m.beans.map Node.bean ++ m.sockets.map Node.socket := by
  have hdeclared : node ∈ (ofDeclarations m).nodes := by
    refine mem_nodes_of_mem_foldl (fun g bean h => ?_) h
    unfold addBean at h
    split at h
    · exact h
    · exact mem_nodes_of_mem_foldl (fun _ _ => mem_nodes_of_mem_addDependency hnode) h
  exact (mem_nodes_foldl_addNode hdeclared).resolve_left List.not_mem_nil

end Declared

end Graph

end Injection
