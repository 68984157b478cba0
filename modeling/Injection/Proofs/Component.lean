import Injection.Cycle
import Injection.Proofs.Build
import Injection.Proofs.Reach
import Injection.Proofs.Walk

/-!
# Components are classes of mutual reachability

The table of components files a node under the lowest node that reaches it and that it reaches, if
there is one.

## Main definitions

* `Graph.Reaches` — whether a node reaches a node by at least one edge.
-/

namespace Injection.Graph

open Relation

variable {g : Graph} {i j : Nat}

/-- Whether a node reaches a node by at least one edge. -/
abbrev Reaches (g : Graph) : Nat → Nat → Prop := TransGen (Adjacent g.edges)

theorem mem_successors_iff : j ∈ g.successors i ↔ Adjacent g.edges i j := by
  simp [successors, edgesFrom, Adjacent, and_assoc]

theorem Sound.mem_reached_iff (hs : g.Sound) : j ∈ g.reached i ↔ g.Reaches i j := by
  have hleads : Reach.Leads g.successors (List.range g.order) = Adjacent g.edges := by
    funext a b
    rw [Reach.Leads, mem_successors_iff, List.mem_range]
    refine propext ⟨And.right, fun h => ⟨?_, h⟩⟩
    obtain ⟨e, he, rfl, -⟩ := h
    exact hs.source_lt e he
  rw [reached, Reach.mem_fromAny_iff, hleads, Reaches, TransGen.head'_iff]
  simp only [mem_successors_iff]

/-- The lowest node that reaches a node and that it reaches. -/
def leader? (g : Graph) (i : Nat) : Option Nat :=
  if i ∈ g.reached i then
    (List.range g.order).find? fun j => decide (j ∈ g.reached i) && decide (i ∈ g.reached j)
  else none

theorem components_eq (g : Graph) : g.components = (List.range g.order).map g.leader? := by
  have hpairs : ((List.range g.order).map g.reached).mapIdx (·, ·) =
      (List.range g.order).map fun j => (j, g.reached j) := by
    apply List.ext_getElem?
    intro k
    by_cases hk : k < g.order <;> simp [hk]
  rw [components, reachedTable_eq, leaders, hpairs]
  apply List.ext_getElem?
  intro k
  by_cases hk : k < g.order
  · simp only [List.getElem?_mapIdx, List.getElem?_map, List.getElem?_range hk, Option.map_some,
      leader?, List.findSome?_map]
    rw [← List.findSome?_guard]
    rfl
  · simp [hk]

theorem getElem?_components (hi : i < g.order) : g.components[i]? = some (g.leader? i) := by
  simp [components_eq, hi]

theorem Sound.isSome_leader?_iff (hs : g.Sound) (hi : i < g.order) :
    (g.leader? i).isSome = true ↔ g.Reaches i i := by
  rw [leader?, ← hs.mem_reached_iff]
  split
  · next h =>
    refine iff_of_true (List.find?_isSome.mpr ?_) h
    exact ⟨i, List.mem_range.mpr hi, by simp [h]⟩
  · next h => exact iff_of_false Bool.false_ne_true h

/-- The nodes that the search starts at are those that reach themselves. -/
theorem Sound.mem_cyclicNodes_iff (hs : g.Sound) :
    i ∈ g.cyclicNodes g.components ↔ i < g.order ∧ g.Reaches i i := by
  rw [cyclicNodes, List.mem_filter, List.mem_range]
  apply and_congr_right
  intro hi
  rw [getElem?_components hi, Option.getD_some, hs.isSome_leader?_iff hi]

theorem pairwise_cyclicNodes (components : List (Option Nat)) :
    (g.cyclicNodes components).Pairwise (· < ·) :=
  List.pairwise_lt_range.filter _

theorem Sound.leader?_eq (hs : g.Sound) (hij : g.Reaches i j) (hji : g.Reaches j i) :
    g.leader? i = g.leader? j := by
  rw [leader?, leader?, if_pos (hs.mem_reached_iff.mpr (hij.trans hji)),
    if_pos (hs.mem_reached_iff.mpr (hji.trans hij))]
  congr 1
  funext k
  rw [← Bool.decide_and, ← Bool.decide_and]
  refine decide_eq_decide.mpr ?_
  simp only [hs.mem_reached_iff]
  constructor
  · exact fun h => ⟨hji.trans h.1, h.2.trans hij⟩
  · exact fun h => ⟨hij.trans h.1, h.2.trans hji⟩

end Injection.Graph
