import Injection.Proofs.Anchors
import Injection.Proofs.Name

/-!
# The shape of a graph

In the graph of any module, sound or not, a look-up by name gives the one node of that name, no edge
leaves a socket, and dependencies leave beans. One edge leaves a hop, to the member before it. A hop
that reports cycles is one that leads to its owner.

## Main definitions

* `Graph.LeadsToParent` — whether the one edge of a hop leads to what it is a member of.
-/

namespace Injection

open Relation

/-- Only the empty path leads to what is written like its start. -/
theorem QualifiedName.rendered_member_eq_iff {name : QualifiedName} {path : List String} :
    (name.member path).rendered = name.rendered ↔ path = [] := by
  constructor
  · intro h
    have hchars := congrArg String.toList h
    rw [toList_rendered, toList_rendered, toList_localPart_member] at hchars
    have hnone := List.append_right_eq_self.mp (List.cons.inj (List.append_cancel_left hchars)).2
    cases path with
    | nil => rfl
    | cons segment rest => cases hnone
  · rintro rfl
    rfl

namespace Graph

variable {g g' : Graph} {i parent : Nat} {name owner : QualifiedName} {path : List String}

/-! ## Hops -/

/-- Whether the one edge of a hop leads to the node of what it is a member of, which has a lower
number. -/
structure LeadsToParent (g : Graph) (i : Nat) (owner : QualifiedName) (path : List String)
    (parent : Nat) : Prop where
  path_ne : path ≠ []
  edges : g.edgesFrom i = [⟨i, parent, nestedLabel, true⟩]
  lt : parent < i
  found : g.indexOf? (owner.member path.dropLast) = some parent

/-- Whether all hops lead to what they are members of. -/
def Chained (g : Graph) : Prop :=
  ∀ i owner path, g.nodes[i]? = some (.hop owner path) → ∃ parent, g.LeadsToParent i owner path parent

theorem edgesFrom_pushEdge_of_ne {e : Edge} (h : e.source ≠ i) :
    (g.pushEdge e).edgesFrom i = g.edgesFrom i := by
  simp [edgesFrom, pushEdge, h]

theorem Sound.edgesFrom_order (hs : g.Sound) : g.edgesFrom g.order = [] := by
  refine List.filter_eq_nil_iff.mpr fun e he hsource => ?_
  exact (hs.source_lt e he).ne (beq_iff_eq.mp hsource)

/-- A hop goes on leading to its parent, if no edge is added to it. -/
theorem LeadsToParent.of_grows (h : g.LeadsToParent i owner path parent) (hgrows : Grows g g')
    (hedges : g'.edgesFrom i = g.edgesFrom i) : g'.LeadsToParent i owner path parent where
  path_ne := h.path_ne
  edges := hedges.trans h.edges
  lt := h.lt
  found := indexOf?_of_grows (.single hgrows) h.found

/-- What a step adds leaves the edges of other hops as they are. -/
theorem Grows.chained (h : Grows g g') (hs : g.Sound) (hc : g.Chained) : g'.Chained := by
  intro i owner path hi
  cases h with
  | @declare node hfresh hdeclared =>
    rcases of_getElem?_pushNode hi with hi | ⟨-, rfl⟩
    · obtain ⟨parent, hparent⟩ := hc i owner path hi
      exact ⟨parent, hparent.of_grows (.declare hfresh hdeclared) rfl⟩
    · cases hdeclared
  | @hop owner' walked segment parent hfresh hparent =>
    rcases of_getElem?_pushNode hi with hi | ⟨rfl, hnode⟩
    · have hne : g.order ≠ i := (List.getElem?_eq_some_iff.mp hi).1.ne'
      obtain ⟨parent', hparent'⟩ := hc i owner path hi
      exact ⟨parent', hparent'.of_grows (.hop hfresh hparent) (edgesFrom_pushEdge_of_ne hne)⟩
    · obtain ⟨rfl, rfl⟩ := Node.hop.inj hnode
      have hnew : (g.pushNode (.hop owner (walked ++ [segment]))).edgesFrom g.order = [] :=
        hs.edgesFrom_order
      refine ⟨parent, by simp, ?_, hs.lt_of_indexOf? hparent, ?_⟩
      · simpa [edgesFrom, pushEdge] using hnew
      · rw [List.dropLast_concat]
        exact indexOf?_of_grows (.single (.hop hfresh hparent)) hparent
  | @link source target bean label hsource htarget =>
    have hne : source ≠ i := by
      rintro rfl
      rw [show g.nodes[source]? = _ from hi] at hsource
      cases hsource
    obtain ⟨parent, hparent⟩ := hc i owner path hi
    exact ⟨parent, hparent.of_grows (.link hsource htarget) (edgesFrom_pushEdge_of_ne hne)⟩

theorem chained_build (m : ModuleDecl) : (build m).Chained := by
  apply build_induction m
  · intro i owner path hi
    cases hi
  · exact fun _ _ hgrows hs hc => hgrows.chained hs hc

/-- A hop leads to the node of its owner exactly if it is one segment away from it. -/
theorem LeadsToParent.anchorsReports_iff (h : g.LeadsToParent i owner path parent)
    (hs : g.Sound) :
    (Node.hop owner path).anchorsReports = true ↔ g.indexOf? owner = some parent := by
  have hone : (Node.hop owner path).anchorsReports = true ↔ path.dropLast = [] := by
    have hpos := List.length_pos_of_ne_nil h.path_ne
    rw [Node.anchorsReports, beq_iff_eq, ← List.length_eq_zero_iff, List.length_dropLast]
    omega
  have howner : (owner.member path.dropLast).rendered = owner.rendered ↔ path.dropLast = [] :=
    QualifiedName.rendered_member_eq_iff
  rw [hone, ← howner, hs.indexOf?_eq_some_iff, hs.indexOf?_eq_some_iff.mp h.found,
    Option.some.injEq]

/-! ## All nodes -/

theorem Sound.indexOf?_eq_some_iff_exists (hs : g.Sound) : g.indexOf? name = some i ↔
    ∃ node, g.nodes[i]? = some node ∧ node.name.rendered = name.rendered := by
  rw [hs.indexOf?_eq_some_iff, written, List.getElem?_map, Option.map_eq_some_iff]

theorem Layered.edgesFrom_socket (hl : g.Layered) {socket : Socket}
    (h : g.nodes[i]? = some (.socket socket)) : g.edgesFrom i = [] := by
  refine List.filter_eq_nil_iff.mpr fun e he hsource => ?_
  rw [← beq_iff_eq.mp hsource] at h
  exact hl.source_ne_socket he socket h

theorem Layered.exists_bean_of_nested_eq_false (hl : g.Layered) {e : Edge} (he : e ∈ g.edges)
    (hdirect : e.nested = false) : ∃ bean, g.nodes[e.source]? = some (.bean bean) := by
  rcases hl.leaves e he with ⟨-, hbean⟩ | ⟨hnested, -⟩
  · exact hbean
  · rw [hdirect] at hnested
    cases hnested

/-- In the graph of any module the names of the nodes are different, and a look-up by name finds the
number of the node that bears it. No edge leaves a socket, and the edges of dependencies leave
beans. One edge leaves a hop, with the label of nested edges, to the node of the member before it,
which has a lower number; and the hop reports cycles exactly if this is the node of its owner. -/
theorem shape_build (m : ModuleDecl) :
    let g := build m
    (g.nodes.map (·.name.rendered)).Nodup ∧
    (∀ name i, g.indexOf? name = some i ↔
      ∃ node, g.nodes[i]? = some node ∧ node.name.rendered = name.rendered) ∧
    (∀ i socket, g.nodes[i]? = some (.socket socket) → g.edgesFrom i = []) ∧
    (∀ e ∈ g.edges, e.nested = false → ∃ bean, g.nodes[e.source]? = some (.bean bean)) ∧
    ∀ i owner path, g.nodes[i]? = some (.hop owner path) →
      ∃ parent, g.LeadsToParent i owner path parent ∧
        ((Node.hop owner path).anchorsReports = true ↔ g.indexOf? owner = some parent) := by
  intro g
  have hs : g.Sound := sound_build m
  have hl : g.Layered := layered_build m
  refine ⟨hs.distinct, fun name i => hs.indexOf?_eq_some_iff_exists,
    fun i socket => hl.edgesFrom_socket, fun e => hl.exists_bean_of_nested_eq_false,
    fun i owner path hi => ?_⟩
  obtain ⟨parent, hparent⟩ := chained_build m i owner path hi
  exact ⟨parent, hparent, hparent.anchorsReports_iff hs⟩

end Graph

/-- A module that is not valid: a name is declared twice, a target is not declared, and a member of
a member is navigated in two ways. -/
def unsorted : ModuleDecl where
  name := "m"
  beans := [
    { name := ⟨"m", "b"⟩
      dependencies := [⟨⟨"m", "t"⟩, "p", .nested ["x", "y"]⟩, ⟨⟨"m", "u"⟩, "u", .direct⟩] },
    { name := ⟨"m", "b"⟩, dependencies := [⟨⟨"m", "t"⟩, "q", .nested ["x.y"]⟩] }]
  sockets := [{ name := ⟨"m", "t"⟩ }]

/-- The member of the member is one node for both ways to it, and leads to the member. -/
theorem shape_build_unsorted :
    let g := Graph.build unsorted
    g.edgesFrom 1 = [] ∧ g.edgesFrom 3 = [⟨3, 2, Graph.nestedLabel, true⟩] ∧
      g.indexOf? ⟨"m", "t.x"⟩ = some 2 ∧ g.indexOf? ⟨"m", "t"⟩ ≠ some 2 := by
  intro g
  obtain ⟨-, hfound, hsocket, -, hhop⟩ := Graph.shape_build unsorted
  have hnodes : g.nodes[1]? = some (.socket { name := ⟨"m", "t"⟩ }) ∧
      g.nodes[3]? = some (.hop ⟨"m", "t"⟩ ["x", "y"]) := by
    constructor <;> rfl
  obtain ⟨parent, hparent, hreports⟩ := hhop 3 _ _ hnodes.2
  have htwo : g.indexOf? ⟨"m", "t.x"⟩ = some 2 := (hfound _ _).mpr ⟨_, rfl, rfl⟩
  obtain rfl : 2 = parent := Option.some.inj (htwo.symm.trans hparent.found)
  refine ⟨hsocket 1 _ hnodes.1, hparent.edges, htwo, fun h => ?_⟩
  exact absurd (hreports.mpr h) (by decide)

end Injection
