import Injection.Cycle.Diagram
import Injection.Proofs.Cycles

/-!
# Where cycles are reported

An edge leaves a bean, or it leaves a hop and leads down, to a node of a lower number. So a walk
that leaves no bean leads down all the way, and cannot come back to where it started: every closed
walk leaves a bean, and every cycle is reported at one.

## Main definitions

* `Graph.LeavesBean`, `Graph.LeavesHop` — the two kinds of edges.
* `Graph.Layered` — whether all edges are of these kinds, and every hop has an edge.
-/

namespace Injection

open Relation

/-- A walk along edges that lead down is no longer than it is deep. -/
theorem Walk.add_length_le {edges es : List Edge} {u w : Nat} (h : Walk edges u es w)
    (hdown : ∀ e ∈ es, e.target < e.source) : w + es.length ≤ u := by
  induction h with
  | nil => exact Nat.le_refl _
  | @cons e es w _ _ ih =>
    obtain ⟨he, hes⟩ := List.forall_mem_cons.mp hdown
    have hrest := ih hes
    rw [List.length_cons]
    omega

namespace Graph

variable {g g' : Graph} {e : Edge}

/-! ## How edges leave nodes -/

/-- Whether an edge is that of a dependency: it leaves a bean. -/
def LeavesBean (g : Graph) (e : Edge) : Prop :=
  e.nested = false ∧ ∃ bean, g.nodes[e.source]? = some (.bean bean)

/-- Whether an edge is that of a hop: it leads down. -/
def LeavesHop (g : Graph) (e : Edge) : Prop :=
  e.nested = true ∧ e.target < e.source ∧ ∃ owner path, g.nodes[e.source]? = some (.hop owner path)

/-- Edges leave beans or hops, and every hop is left by an edge. -/
structure Layered (g : Graph) : Prop where
  leaves : ∀ e ∈ g.edges, g.LeavesBean e ∨ g.LeavesHop e
  leads : ∀ i owner path, g.nodes[i]? = some (.hop owner path) → ∃ e ∈ g.edges, e.source = i

/-- A node of a graph with one more node is the new one, or was there before. -/
theorem of_getElem?_pushNode {node new : Node} {i : Nat}
    (h : (g.pushNode new).nodes[i]? = some node) :
    g.nodes[i]? = some node ∨ i = g.order ∧ node = new := by
  rw [pushNode, List.getElem?_append] at h
  split at h
  · exact .inl h
  · next hlt =>
    rw [List.getElem?_singleton] at h
    split at h
    · exact .inr ⟨by rw [order]; omega, (Option.some.inj h).symm⟩
    · cases h

theorem Grows.leaves (h : Grows g g') (he : g.LeavesBean e ∨ g.LeavesHop e) :
    g'.LeavesBean e ∨ g'.LeavesHop e :=
  he.imp (fun ⟨hnested, bean, hb⟩ => ⟨hnested, bean, getElem?_nodes_of_grows (.single h) hb⟩)
    fun ⟨hnested, hdown, owner, path, hhop⟩ =>
      ⟨hnested, hdown, owner, path, getElem?_nodes_of_grows (.single h) hhop⟩

theorem Grows.layered (h : Grows g g') (hs : g.Sound) (hl : g.Layered) : g'.Layered := by
  have hkept : ∀ e ∈ g.edges, g'.LeavesBean e ∨ g'.LeavesHop e := fun e he =>
    h.leaves (hl.leaves e he)
  cases h with
  | @declare node _ hdeclared =>
    refine ⟨hkept, fun i owner path hi => ?_⟩
    rcases of_getElem?_pushNode hi with hi | ⟨-, rfl⟩
    · exact hl.leads i owner path hi
    · cases hdeclared
  | @hop owner walked segment parent _ hparent =>
    refine ⟨fun e he => ?_, fun i owner' path hi => ?_⟩
    · rw [edges_pushEdge, edges_pushNode, List.mem_append, List.mem_singleton] at he
      rcases he with he | rfl
      · exact hkept e he
      · refine .inr ⟨rfl, hs.lt_of_indexOf? hparent, owner, walked ++ [segment], ?_⟩
        exact List.getElem?_concat_length
    · rw [edges_pushEdge, edges_pushNode]
      rcases of_getElem?_pushNode hi with hi | ⟨rfl, -⟩
      · obtain ⟨e, he, hsource⟩ := hl.leads i owner' path hi
        exact ⟨e, List.mem_append_left _ he, hsource⟩
      · exact ⟨_, List.mem_append_right _ List.mem_cons_self, rfl⟩
  | @link source target bean label hsource _ =>
    refine ⟨fun e he => ?_, fun i owner path hi => ?_⟩
    · rw [edges_pushEdge, List.mem_append, List.mem_singleton] at he
      rcases he with he | rfl
      · exact hkept e he
      · exact .inl ⟨rfl, bean, hsource⟩
    · obtain ⟨e, he, hi⟩ := hl.leads i owner path hi
      exact ⟨e, List.mem_append_left _ he, hi⟩

theorem layered_build (m : ModuleDecl) : (build m).Layered := by
  apply build_induction m
  · constructor <;> simp [empty]
  · exact fun _ _ hgrows hs hl => hgrows.layered hs hl

namespace Layered

variable (hl : g.Layered)

include hl

theorem source_ne_socket (he : e ∈ g.edges) (socket : Socket) :
    g.nodes[e.source]? ≠ some (.socket socket) := by
  rcases hl.leaves e he with ⟨-, bean, hb⟩ | ⟨-, -, owner, path, hhop⟩
  · simp [hb]
  · simp [hhop]

theorem lt_of_nested (he : e ∈ g.edges) (hnested : e.nested = true) : e.target < e.source := by
  rcases hl.leaves e he with ⟨hdirect, -⟩ | ⟨-, hdown, -⟩
  · rw [hnested] at hdirect
    cases hdirect
  · exact hdown

/-- A closed walk leaves a bean: it cannot lead down all the way round. -/
theorem exists_bean {u : Nat} {es : List Edge} (h : Walk g.edges u es u) (hne : es ≠ []) :
    ∃ e ∈ es, ∃ bean, g.nodes[e.source]? = some (.bean bean) := by
  by_contra hno
  push Not at hno
  have hdown : ∀ e ∈ es, e.target < e.source := fun e he =>
    ((hl.leaves e (h.mem_edges he)).resolve_left fun ⟨_, bean, hb⟩ => hno e he bean hb).2.1
  have hle := h.add_length_le hdown
  have hpos := List.length_pos_of_ne_nil hne
  omega

/-- From a hop the nested edges lead to a node that is declared. -/
theorem exists_walk_nested (hs : g.Sound) {i : Nat} {owner : QualifiedName} {path : List String}
    (h : g.nodes[i]? = some (.hop owner path)) :
    ∃ es j node, Walk (g.edges.filter (·.nested)) i es j ∧ g.nodes[j]? = some node ∧
      node.isHop = false := by
  induction i using Nat.strong_induction_on generalizing owner path with
  | _ i ih =>
    obtain ⟨e, he, rfl⟩ := hl.leads i owner path h
    have hhop : g.LeavesHop e := (hl.leaves e he).resolve_left fun ⟨_, bean, hb⟩ => by
      rw [h] at hb
      cases hb
    have hnested : e ∈ g.edges.filter (·.nested) := List.mem_filter.mpr ⟨he, hhop.1⟩
    obtain ⟨node, hnode⟩ : ∃ node, g.nodes[e.target]? = some node :=
      ⟨_, List.getElem?_eq_getElem (hs.target_lt e he)⟩
    cases node with
    | bean bean => exact ⟨[e], _, _, .cons hnested (.nil _), hnode, rfl⟩
    | socket socket => exact ⟨[e], _, _, .cons hnested (.nil _), hnode, rfl⟩
    | hop owner' path' =>
      obtain ⟨es, j, node, hwalk, hj, hdeclared⟩ := ih e.target hhop.2.1 hnode
      exact ⟨e :: es, j, node, .cons hnested hwalk, hj, hdeclared⟩

end Layered

/-! ## Anchors -/

/-- The node that is found by a name is the one that bears it. -/
theorem Sound.node?_nameAt (hs : g.Sound) {i : Nat} (h : i < g.order) :
    g.node? (g.nameAt i) = g.nodes[i]? := by
  have hfound := hs.indexOf?_nameAt h
  rw [indexOf?, List.findIdx?_eq_some_iff_getElem] at hfound
  obtain ⟨hi, hname, hfirst⟩ := hfound
  rw [List.getElem?_eq_getElem hi, node?, List.find?_eq_some_iff_getElem]
  refine ⟨hname, i, hi, rfl, fun j hj => ?_⟩
  simpa only [Bool.not_eq_true, Bool.not_eq_true'] using hfirst j hj

/-- The anchors of a cycle are those of its names whose nodes report cycles, in the same order. -/
theorem Sound.anchors_cycleOf (hs : g.Sound) {loop : List Edge} (h : ∀ e ∈ loop, e ∈ g.edges) :
    (g.cycleOf loop).anchors =
      (g.cycleOf loop).names.filter fun name => (g.node? name).any Node.anchorsReports := by
  simp only [cycleOf, Cycle.names, List.map_map, Function.comp_def]
  induction loop with
  | nil => rfl
  | cons e rest ih =>
    obtain ⟨he, hrest⟩ := List.forall_mem_cons.mp h
    have hlt := hs.source_lt e he
    have hnode : g.nodes[e.source]? = some g.nodes[e.source] := List.getElem?_eq_getElem hlt
    have hname : g.nameAt e.source = g.nodes[e.source].name := by simp [nameAt, hnode]
    rw [List.filterMap_cons, List.map_cons, List.filter_cons, hs.node?_nameAt hlt, ih hrest, hnode,
      hname]
    cases hreports : g.nodes[e.source].anchorsReports <;> simp [Option.filter, hreports]

theorem anchors_eq {m : ModuleDecl} {c : Cycle} (hc : c ∈ (build m).cycles) :
    c.anchors = c.names.filter fun name => ((build m).node? name).any Node.anchorsReports := by
  obtain ⟨loop, hloop, rfl⟩ := List.mem_map.mp hc
  exact (sound_build m).anchors_cycleOf fun e he => (isLoop_of_mem_loops hloop).mem_edges he

/-- Every listed cycle of a module is reported somewhere. -/
theorem anchors_ne_nil {m : ModuleDecl} {c : Cycle} (hc : c ∈ (build m).cycles) :
    c.anchors ≠ [] := by
  obtain ⟨loop, hloop, rfl⟩ := List.mem_map.mp hc
  have h := isLoop_of_mem_loops hloop
  obtain ⟨u, hwalk⟩ := h.closed
  obtain ⟨e, he, bean, hb⟩ := (layered_build m).exists_bean hwalk h.nonempty
  refine List.ne_nil_of_mem (a := bean.name) (List.mem_filterMap.mpr ⟨e, he, ?_⟩)
  simp [hb, Node.anchorsReports, Node.name]

end Graph

theorem diagnoseCycles_ne_nil {m : ModuleDecl} {home : ModuleName}
    (h : (Graph.build m).cycles ≠ []) : diagnoseCycles home (Graph.build m).cycles ≠ [] := by
  obtain ⟨c, hc⟩ := List.exists_mem_of_ne_nil _ h
  obtain ⟨anchor, ha⟩ := List.exists_mem_of_ne_nil _ (Graph.anchors_ne_nil hc)
  exact List.ne_nil_of_mem (List.mem_flatMap.mpr ⟨c, hc, List.mem_map_of_mem ha⟩)

end Injection
