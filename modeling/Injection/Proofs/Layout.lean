import Injection.Proofs.Selection
import Injection.Proofs.Validation

/-!
# The layout of a graph

The nodes and the edges of the graph of a valid module, in the order of their numbers: the declared
beans and sockets, then a hop for each new name of a member when it is first used; and the edges of
the dependencies as they are declared, each behind the edges of the hops that it adds.

## Main definitions

* `Member.node` — the hop of a member.
* `ModuleDecl.hopsOf` — the members that become hops for the sake of some dependencies.
* `Graph.LaidOut` — whether a graph has the nodes and the edges of a module, in this order.
-/

namespace Injection

/-! ## Members -/

namespace Member

/-- The hop of a member. -/
def node (x : Member) : Node := .hop x.owner (x.walked ++ [x.segment])

theorem mem_along_iff {x : Member} {owner : QualifiedName} {walked rest : List String} :
    x ∈ along owner walked rest ↔
      x.owner = owner ∧ ∃ front back, rest = front ++ x.segment :: back ∧
        x.walked = walked ++ front := by
  induction rest generalizing walked with
  | nil => simp [along]
  | cons segment rest ih =>
    rw [along, List.mem_cons, ih]
    constructor
    · rintro (rfl | ⟨rfl, front, back, rfl, hwalked⟩)
      · exact ⟨rfl, [], rest, rfl, (List.append_nil _).symm⟩
      · exact ⟨rfl, segment :: front, back, rfl, by rw [hwalked, ← List.append_cons]⟩
    · rintro ⟨rfl, _ | ⟨first, front⟩, back, hrest, hwalked⟩
      · obtain ⟨rfl, rfl⟩ := List.cons.inj hrest
        rw [List.append_nil] at hwalked
        subst hwalked
        exact .inl rfl
      · obtain ⟨rfl, rfl⟩ := List.cons.inj hrest
        exact .inr ⟨rfl, front, back, rfl, by rw [hwalked, ← List.append_cons]⟩

end Member

/-- The members of a dependency are the parts of its path from the start on that are not empty. -/
theorem Dependency.mem_members_iff {dependency : Dependency} {x : Member} :
    x ∈ dependency.members ↔
      x.owner = dependency.target ∧ x.walked ++ [x.segment] <+: dependency.path := by
  rw [members, Member.mem_along_iff]
  refine and_congr_right fun _ => ⟨?_, ?_⟩
  · rintro ⟨front, back, hpath, rfl⟩
    exact ⟨back, by simp [hpath]⟩
  · rintro ⟨back, hpath⟩
    exact ⟨x.walked, back, by rw [← hpath, ← List.append_cons], rfl⟩

namespace ModuleDecl

variable {m : ModuleDecl}

/-- The members that become hops for the sake of some dependencies: of those that bear no declared
name, the first of each name. -/
def hopsOf (m : ModuleDecl) (uses : List (String × Dependency)) : List Member :=
  keepFirst Member.name m.declared (uses.flatMap (·.2.members))

/-- Hops stand in the order in which their names are first used. -/
theorem pairwise_hops (m : ModuleDecl) :
    (m.hops.map Member.name).Pairwise fun a b =>
      (m.members.map Member.name).idxOf a < (m.members.map Member.name).idxOf b := by
  have hordered : (keepFirst Member.name m.declared (m.members.filter fun _ => true)).Pairwise
      fun x y => (m.members.map Member.name).idxOf x.name <
        (m.members.map Member.name).idxOf y.name :=
    pairwise_keepFirst_filter (fun _ => true) m.declared m.members
  rw [List.filter_true] at hordered
  exact List.pairwise_map.mpr hordered

end ModuleDecl

namespace Graph

variable {g : Graph} {m : ModuleDecl} {known : List String}

/-! ## Nodes -/

/-- The hops that members add to a graph. -/
def newHops (g : Graph) (members : List Member) : List Node :=
  (keepFirst Member.name g.written members).map Member.node

theorem written_eq_of_nodes_eq {g' : Graph} {hops : List Node} (h : g'.nodes = g.nodes ++ hops) :
    g'.written = g.written ++ hops.map (·.name.rendered) := by
  rw [written, written, h, List.map_append]

theorem newHops_append {g' : Graph} {front : List Member}
    (h : g'.nodes = g.nodes ++ g.newHops front) (back : List Member) :
    g.newHops (front ++ back) = g.newHops front ++ g'.newHops back := by
  have hnames : (g.newHops front).map (·.name.rendered) =
      (keepFirst Member.name g.written front).map Member.name := by
    rw [newHops, List.map_map]
    rfl
  rw [newHops, keepFirst_append, List.map_append, ← hnames, ← written_eq_of_nodes_eq h]
  rfl

theorem nodes_addHops (g : Graph) (owner : QualifiedName) (parent : Nat)
    (walked rest : List String) :
    (g.addHops owner parent walked rest).1.nodes =
      g.nodes ++ g.newHops (Member.along owner walked rest) := by
  induction rest generalizing g parent walked with
  | nil => simp [addHops, Member.along, newHops, keepFirst]
  | cons segment rest ih =>
    -- the first member adds its hop or nothing, the others are added to what comes of that
    let x : Member := ⟨owner, walked, segment⟩
    have hnew : g.newHops [x] = if x.name ∈ g.written then [] else [x.node] := by
      rw [newHops, keepFirst]
      split <;> rfl
    rw [show Member.along owner walked (segment :: rest) =
      [x] ++ Member.along owner (walked ++ [segment]) rest from rfl, addHops]
    split
    · next hop hhop =>
      rw [if_pos (show x.name ∈ g.written from mem_written_of_indexOf? hhop)] at hnew
      have hsame : g.nodes = g.nodes ++ g.newHops [x] := by rw [hnew, List.append_nil]
      rw [ih, newHops_append hsame, hnew, List.nil_append]
    · next hnone =>
      rw [if_neg (show x.name ∉ g.written from indexOf?_eq_none_iff.mp hnone)] at hnew
      let grown := (g.pushNode x.node).pushEdge ⟨g.order, parent, nestedLabel, true⟩
      have hgrown : grown.nodes = g.nodes ++ g.newHops [x] := by
        rw [hnew]
        rfl
      rw [ih, newHops_append hgrown, ← List.append_assoc, ← hgrown]
      rfl

theorem nodes_addDependency {dependency : Dependency} (source : Nat)
    (h : dependency.target.rendered ∈ g.written) :
    (g.addDependency source dependency).nodes = g.nodes ++ g.newHops dependency.members := by
  unfold addDependency
  split
  · next hnone => exact absurd h (indexOf?_eq_none_iff.mp hnone)
  · exact nodes_addHops g _ _ _ _

/-- What each item of a list adds to the nodes of any graph with some known names, all items add
together. -/
theorem nodes_foldl {α : Type} {items : List α} {f : Graph → α → Graph}
    {membersOf : α → List Member}
    (hitem : ∀ g : Graph, known ⊆ g.written → ∀ a ∈ items,
      (f g a).nodes = g.nodes ++ g.newHops (membersOf a))
    (hknown : known ⊆ g.written) :
    (items.foldl f g).nodes = g.nodes ++ g.newHops (items.flatMap membersOf) := by
  induction items generalizing g with
  | nil => simp [newHops, keepFirst]
  | cons a rest ih =>
    have hfirst := hitem g hknown a List.mem_cons_self
    have hkept : known ⊆ (f g a).written := by
      rw [written_eq_of_nodes_eq hfirst]
      exact List.subset_append_of_subset_left _ hknown
    rw [List.foldl_cons, ih (fun g hg b hb => hitem g hg b (List.mem_cons_of_mem _ hb)) hkept,
      hfirst, List.flatMap_cons, newHops_append hfirst, List.append_assoc]

theorem nodes_addBean (bean : Bean) (hbean : bean.name.rendered ∈ known)
    (htargets : ∀ dependency ∈ bean.dependencies, dependency.target.rendered ∈ known)
    (hknown : known ⊆ g.written) :
    (g.addBean bean).nodes =
      g.nodes ++ g.newHops (bean.dependencies.flatMap Dependency.members) := by
  unfold addBean
  split
  · next hnone => exact absurd (hknown hbean) (indexOf?_eq_none_iff.mp hnone)
  · next source _ =>
    exact nodes_foldl (fun g hg dependency hd => nodes_addDependency source
      (hg (htargets dependency hd))) hknown

/-- New names become nodes in the order in which they are declared. -/
theorem nodes_foldl_addNode {nodes : List Node}
    (hnodup : (g.written ++ nodes.map (·.name.rendered)).Nodup) :
    (nodes.foldl addNode g).nodes = g.nodes ++ nodes := by
  induction nodes generalizing g with
  | nil => simp
  | cons node rest ih =>
    have hfresh : g.indexOf? node.name = none := by
      refine indexOf?_eq_none_iff.mpr fun hm => ?_
      exact (List.nodup_append.mp hnodup).2.2 _ hm _ List.mem_cons_self rfl
    have hstep : g.addNode node = g.pushNode node := by
      rw [addNode, hfresh]
      rfl
    rw [List.map_cons, List.append_cons, ← written_pushNode] at hnodup
    rw [List.foldl_cons, hstep, ih hnodup, pushNode, List.append_assoc, List.singleton_append]

theorem nodes_ofDeclarations (hnodup : m.declared.Nodup) :
    (ofDeclarations m).nodes = m.beans.map .bean ++ m.sockets.map .socket := by
  refine (nodes_foldl_addNode (g := empty m.name) ?_).trans (List.nil_append _)
  rw [map_name_declarations]
  exact hnodup

theorem nodes_build (hm : m.Closed) (hnodup : m.declared.Nodup) :
    (build m).nodes =
      m.beans.map .bean ++ m.sockets.map .socket ++ m.hops.map Member.node := by
  have hwritten : (ofDeclarations m).written = m.declared := by
    rw [written, nodes_ofDeclarations hnodup, map_name_declarations]
    rfl
  have hmembers : m.beans.flatMap (fun bean => bean.dependencies.flatMap Dependency.members) =
      m.members := by
    simp [ModuleDecl.members, ModuleDecl.uses, List.flatMap_assoc, List.flatMap_map]
  have hbean : ∀ bean ∈ m.beans, bean.name.rendered ∈ m.declared := fun bean hb =>
    List.mem_map_of_mem (List.mem_append_left _ (List.mem_map_of_mem hb))
  have htarget : ∀ bean ∈ m.beans, ∀ dependency ∈ bean.dependencies,
      dependency.target.rendered ∈ m.declared := fun bean hb dependency hd =>
    hm (bean.name.rendered, dependency) (ModuleDecl.mem_uses_iff.mpr ⟨bean, hb, hd, rfl⟩)
  have hfold := nodes_foldl (g := ofDeclarations m)
    (fun g hg bean hb => nodes_addBean bean (hbean bean hb) (htarget bean hb) hg)
    (fun name hname => hwritten ▸ hname)
  rw [build, hfold, nodes_ofDeclarations hnodup, hmembers, newHops, hwritten]
  rfl

/-! ## Edges -/

theorem map_linkOf_filter_nested (g : Graph) (edges : List Edge) :
    (edges.filter (·.nested)).map g.linkOf = (edges.map g.linkOf).filter (·.nested) := by
  rw [List.filter_map]
  rfl

theorem map_linkOf_filter_direct (g : Graph) (edges : List Edge) :
    (edges.filter (!·.nested)).map g.linkOf = (edges.map g.linkOf).filter (!·.nested) := by
  rw [List.filter_map]
  rfl

end Graph

/-- Before the link of a dependency stand the links of the dependencies before it, and those of the
hops that these and it add. -/
theorem Wiring.exists_linksOf_eq_append (seen : List String) (front : List (String × Dependency))
    (use : String × Dependency) (back : List (String × Dependency)) :
    ∃ before after, linksOf seen (front ++ use :: back) =
        before ++ linkTo use.1 use.2 :: after ∧
      before.filter (!·.nested) = front.map (fun use => linkTo use.1 use.2) ∧
      before.filter (·.nested) =
        (keepFirst Member.name seen ((front ++ [use]).flatMap (·.2.members))).map Member.link := by
  rw [linksOf_append, linksOf]
  refine ⟨linksOf seen front ++ (keepFirst Member.name _ use.2.members).map Member.link, _,
    (List.append_assoc _ _ _).symm, ?_, ?_⟩
  · rw [List.filter_append, filter_direct_linksOf]
    simp [List.filter_map, Function.comp_def, Member.link]
  · rw [List.filter_append, filter_nested_linksOf, List.flatMap_append, List.flatMap_singleton,
      keepFirst_append, List.map_append]
    simp [List.filter_map, Function.comp_def, Member.link]

namespace Graph

variable {g : Graph} {m : ModuleDecl}

/-- Whether a graph has the nodes and the edges of a module, in this order. -/
structure LaidOut (m : ModuleDecl) (g : Graph) : Prop where
  sound : g.Sound
  /-- The beans, the sockets, and then the hops. -/
  nodes : g.nodes = m.beans.map .bean ++ m.sockets.map .socket ++ m.hops.map Member.node
  /-- One edge for each dependency, in order. -/
  direct : (g.edges.filter (!·.nested)).map g.linkOf =
    m.uses.map fun use => Wiring.linkTo use.1 use.2
  /-- One edge for each hop, in order. -/
  nested : (g.edges.filter (·.nested)).map g.linkOf = m.hops.map Member.link
  /-- When the edge of a dependency is added, the edges of the dependencies before it are there, and
  of the hops just those that these dependencies and it make use of. -/
  inserted : ∀ front use back, m.uses = front ++ use :: back → ∃ before edge after,
    g.edges = before ++ edge :: after ∧ g.linkOf edge = Wiring.linkTo use.1 use.2 ∧
      (before.filter (!·.nested)).map g.linkOf =
        front.map (fun use => Wiring.linkTo use.1 use.2) ∧
      (before.filter (·.nested)).map g.linkOf =
        (m.hopsOf (front ++ [use])).map Member.link

theorem laidOut_build (hm : m.Closed) (hnodup : m.declared.Nodup) : (build m).LaidOut m := by
  have hlinks : (build m).edges.map (build m).linkOf = Wiring.linksOf m.declared m.uses := by
    rw [← links_eq]
    exact congrArg Wiring.links (hm.wiring_eq hnodup)
  refine ⟨sound_build m, nodes_build hm hnodup, ?_, ?_, fun front use back huses => ?_⟩
  · rw [map_linkOf_filter_direct, hlinks, Wiring.filter_direct_linksOf]
  · rw [map_linkOf_filter_nested, hlinks, Wiring.filter_nested_linksOf]
    rfl
  · obtain ⟨before, after, hsplit, hdirect, hnested⟩ :=
      Wiring.exists_linksOf_eq_append m.declared front use back
    rw [huses, hsplit] at hlinks
    obtain ⟨before', rest, hedges, rfl, hrest⟩ := List.map_eq_append_iff.mp hlinks
    obtain ⟨edge, after', rfl, hedge, rfl⟩ := List.map_eq_cons_iff.mp hrest
    refine ⟨before', edge, after', hedges, hedge, ?_, ?_⟩
    · rw [map_linkOf_filter_direct, hdirect]
    · rw [map_linkOf_filter_nested, hnested]
      rfl

/-- The graph of a valid module is laid out as the module is declared: the beans, the sockets, then
a hop for each name of a member that is not declared, when the name is first used; the edges of the
dependencies in order, each behind the edges of the hops that it is the first to use. A member is
what some part of the path of a dependency, from its start on, leads to. -/
theorem build_layout {m : ModuleDecl} (hvalid : m.validate = .ok ()) :
    (build m).LaidOut m ∧
    (∀ x, x ∈ m.members ↔ ∃ bean ∈ m.beans, ∃ dependency ∈ bean.dependencies,
      x.owner = dependency.target ∧ x.walked ++ [x.segment] <+: dependency.path) ∧
    (∀ x, x ∈ m.hops ↔
      m.members.find? (·.name == x.name) = some x ∧ x.name ∉ m.declared) ∧
    (m.hops.map Member.name).Pairwise fun a b =>
      (m.members.map Member.name).idxOf a < (m.members.map Member.name).idxOf b := by
  obtain ⟨-, hnodup, hclosed⟩ := ModuleDecl.validate_eq_ok_iff.mp hvalid
  refine ⟨laidOut_build hclosed hnodup, fun x => ?_, fun x => mem_keepFirst_iff, m.pairwise_hops⟩
  simp only [ModuleDecl.mem_members_iff, Dependency.mem_members_iff]

end Graph

/-- A module in which two paths share their first member, one leads on from a member that bears the
name of a bean, and one spells a member of a member as one segment. -/
def branching : ModuleDecl where
  name := "m"
  beans := [
    { name := ⟨"m", "b"⟩, dependencies := [⟨⟨"m", "t"⟩, "p", .nested ["x", "y"]⟩] },
    { name := ⟨"m", "c"⟩
      dependencies := [⟨⟨"m", "t"⟩, "q", .nested ["x", "z", "w"]⟩,
        ⟨⟨"m", "t"⟩, "r", .nested ["x.y"]⟩, ⟨⟨"m", "s"⟩, "s", .direct⟩] },
    { name := ⟨"m", "t"⟩ },
    { name := ⟨"m", "t.x.z"⟩ }]
  sockets := [{ name := ⟨"m", "s"⟩ }]

/-- The second path adds one hop of its own, and its edge comes fifth. -/
theorem build_layout_branching :
    let g := Graph.build branching
    branching.validate = .ok () ∧
      g.nodes = branching.beans.map .bean ++ branching.sockets.map .socket ++
        [.hop ⟨"m", "t"⟩ ["x"], .hop ⟨"m", "t"⟩ ["x", "y"], .hop ⟨"m", "t"⟩ ["x", "z", "w"]] ∧
      (g.edges.filter (!·.nested)).map g.linkOf =
        [⟨"m:b", "m:t.x.y", "p", false⟩, ⟨"m:c", "m:t.x.z.w", "q", false⟩,
          ⟨"m:c", "m:t.x.y", "r", false⟩, ⟨"m:c", "m:s", "s", false⟩] ∧
      ∃ before edge after, g.edges = before ++ edge :: after ∧
        g.linkOf edge = ⟨"m:c", "m:t.x.z.w", "q", false⟩ ∧
        (before.filter (·.nested)).map g.linkOf =
          [⟨"m:t.x", "m:t", "(nested)", true⟩, ⟨"m:t.x.y", "m:t.x", "(nested)", true⟩,
            ⟨"m:t.x.z.w", "m:t.x.z", "(nested)", true⟩] := by
  intro g
  have hvalid : branching.validate = .ok () := rfl
  obtain ⟨hlaid, -⟩ := Graph.build_layout hvalid
  have hhops : branching.hops =
      [⟨⟨"m", "t"⟩, [], "x"⟩, ⟨⟨"m", "t"⟩, ["x"], "y"⟩, ⟨⟨"m", "t"⟩, ["x", "z"], "w"⟩] := rfl
  refine ⟨hvalid, ?_, hlaid.direct, ?_⟩
  · rw [hlaid.nodes, hhops]
    rfl
  · obtain ⟨before, edge, after, hedges, hedge, -, hnested⟩ := hlaid.inserted
      [("m:b", ⟨⟨"m", "t"⟩, "p", .nested ["x", "y"]⟩)]
      ("m:c", ⟨⟨"m", "t"⟩, "q", .nested ["x", "z", "w"]⟩) _ rfl
    exact ⟨before, edge, after, hedges, hedge, hnested⟩

end Injection
