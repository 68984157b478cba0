import Injection.Proofs.Layout
import Injection.Proofs.Resolution

/-!
# What a resolved module lists

The nodes of a valid module are its beans, its sockets and then the hops, each as it was declared or
navigated. So whatever filters the nodes, in their own order or in that of the schedule, finds each
declaration once: the descriptor lists all beans and all sockets, and a look-up gives the
declaration of a bean for the name of a bean and for no other name, also where the name of a member
is written like a declared one.
-/

namespace Injection

/-- The elements that are looked up by all places in order are those of the list. -/
theorem filterMap_range_getElem? {α β : Type} (list : List α) (f : α → Option β) :
    (List.range list.length).filterMap (fun i => list[i]?.bind f) = list.filterMap f := by
  have hrange : (List.range list.length).map (list[·]?) = list.map some := by
    apply List.ext_getElem <;> simp
  calc (List.range list.length).filterMap (fun i => list[i]?.bind f)
      = ((List.range list.length).map (list[·]?)).filterMap (·.bind f) := by
        rw [List.filterMap_map]
        rfl
    _ = list.filterMap f := by
        rw [hrange, List.filterMap_map]
        rfl

namespace Graph

variable {g : Graph} {m : ModuleDecl} {order : List Nat} {i j : Nat} {b b' : Bean}

/-- The beans of a graph, in an order that holds each node once. -/
theorem perm_beansOf (h : order.Perm (List.range g.order)) :
    (g.beansOf order).Perm (g.nodes.filterMap Node.bean?) := by
  rw [← filterMap_range_getElem?]
  exact h.filterMap _

theorem before_beansOf (h : Before order j i) (hi : g.nodes[i]? = some (.bean b))
    (hj : g.nodes[j]? = some (.bean b')) : Before (g.beansOf order) b' b := by
  have hsub := List.Sublist.filterMap (fun i => g.nodes[i]?.bind Node.bean?) h
  rw [Before, beansOf]
  simpa [hi, hj, Node.bean?] using hsub

/-- In a sound graph a look-up gives the bean that is the node of a name, if any is. -/
theorem Sound.bean?_eq_some_iff (hs : g.Sound) {name : QualifiedName} :
    g.bean? name = some b ↔ Node.bean b ∈ g.nodes ∧ (b.name == name) = true := by
  have hunique : ∀ x ∈ g.nodes, ∀ y ∈ g.nodes, (x.name == name) = true → (y.name == name) = true →
      x = y := by
    intro x hx y hy hxn hyn
    rw [QualifiedName.beq_iff] at hxn hyn
    exact List.inj_on_of_nodup_map hs.distinct hx hy (hxn.trans hyn.symm)
  have hnode : g.bean? name = some b ↔ g.node? name = some (.bean b) := by
    rw [bean?, Option.bind_eq_some_iff]
    constructor
    · rintro ⟨node, hfound, hbean⟩
      cases node <;> cases hbean
      exact hfound
    · exact fun hfound => ⟨_, hfound, rfl⟩
  rw [hnode, node?, find?_eq_some_iff_of_unique hunique]
  rfl

section Declared

variable (hm : m.Closed) (hnodup : m.declared.Nodup)

include hm hnodup

theorem beans_build : (build m).nodes.filterMap Node.bean? = m.beans := by
  simp [nodes_build hm hnodup, List.filterMap_map, Function.comp_def, Node.bean?, Member.node]

theorem sockets_build : (build m).sockets = m.sockets := by
  simp [sockets, nodes_build hm hnodup, List.filterMap_map, Function.comp_def, Node.socket?,
    Member.node]

theorem bean_mem_nodes_build_iff : Node.bean b ∈ (build m).nodes ↔ b ∈ m.beans := by
  rw [← beans_build hm hnodup, List.mem_filterMap]
  constructor
  · exact fun h => ⟨_, h, rfl⟩
  · rintro ⟨node, hnode, hbean⟩
    cases node <;> cases hbean
    exact hnode

end Declared

end Graph

/-- A module that is resolved with a descriptor loses no declaration and lists none twice. The beans
of the descriptor are those of the module, in an order in which each bean that is reached from
another comes before it; so are the beans that are instantiated, which are the declarations
themselves. The sockets are those of the module in order, the required ones and the others apart.
The edges are those of the graph in order: dependency by dependency, the edges of the hops that it
is the first to use, and then its own. A look-up finds the declaration of a bean under each name
that is written like its own, and nothing else. -/
theorem resolve_keeps_declarations {options : Options} {m : ModuleDecl} {resolved : Resolved}
    (h : resolve options m = .ok resolved) (hon : options.generateDescriptor = true) :
    ∃ descriptor, resolved.descriptor? = some descriptor ∧
      descriptor.beans.Perm (m.beans.map (·.name)) ∧
      (∀ i j b b', resolved.graph.nodes[i]? = some (.bean b) →
        resolved.graph.nodes[j]? = some (.bean b') → resolved.graph.Reaches i j →
          Before descriptor.beans b'.name b.name) ∧
      descriptor.beans = resolved.instantiation.map (·.name) ∧
      resolved.instantiation.Perm m.beans ∧
      descriptor.requiredSockets = (m.sockets.filter (·.required)).map (·.name) ∧
      descriptor.optionalSockets = (m.sockets.filter (!·.required)).map (·.name) ∧
      descriptor.wires = resolved.graph.wires ∧
      descriptor.wires.map Wire.link = Wiring.linksOf m.declared m.uses ∧
      ∀ name bean, resolved.bean? name = some bean ↔
        bean ∈ m.beans ∧ (bean.name == name) = true := by
  obtain ⟨hvalid, -, order, horder, rfl⟩ := resolve_eq_ok_iff.mp h
  obtain ⟨-, hnodup, hm⟩ := ModuleDecl.validate_eq_ok_iff.mp hvalid
  have hs := Graph.sound_build m
  have hperm := hs.perm_of_schedule? horder
  have hbeans : ((Graph.build m).beansOf order).Perm m.beans := by
    rw [← Graph.beans_build hm hnodup]
    exact Graph.perm_beansOf hperm
  refine ⟨.describe m.version (Graph.build m) order, if_pos hon, hbeans.map _, ?_, rfl, hbeans, ?_,
    ?_, rfl, congrArg Wiring.links (hm.wiring_eq hnodup), fun name bean => ?_⟩
  · intro i j b b' hi hj hij
    have hmem : i ∈ order :=
      hperm.mem_iff.mpr (List.mem_range.mpr (List.getElem?_eq_some_iff.mp hi).1)
    exact (Graph.before_beansOf (hs.before_of_reaches horder hmem hij) hi hj).map (·.name)
  · rw [← Graph.sockets_build hm hnodup]
    rfl
  · rw [← Graph.sockets_build hm hnodup]
    rfl
  · rw [Resolved.bean?, hs.bean?_eq_some_iff, Graph.bean_mem_nodes_build_iff hm hnodup]

/-- A module in which a bean navigates one member that bears the name of another bean and one that
bears no declared name. -/
def stocked : ModuleDecl where
  name := "m"
  beans := [
    { name := ⟨"m", "b"⟩
      dependencies := [⟨⟨"m", "t"⟩, "x", .nested ["x"]⟩, ⟨⟨"m", "s"⟩, "s", .direct⟩,
        ⟨⟨"m", "t"⟩, "y", .nested ["y"]⟩]
      init := some "open" },
    { name := ⟨"m", "t"⟩ },
    { name := ⟨"m", "t.x"⟩, strategy := .prototype, destroy := some "close" }]
  sockets := [{ name := ⟨"m", "o"⟩, required := false }, { name := ⟨"m", "s"⟩ }]

/-- The member without a declared name is a node, but no bean. -/
theorem resolve_keeps_stocked :
    ∃ resolved descriptor, resolve {} stocked = .ok resolved ∧
      ({} : Options).generateDescriptor = true ∧ resolved.descriptor? = some descriptor ∧
      descriptor.beans.Perm [⟨"m", "b"⟩, ⟨"m", "t"⟩, ⟨"m", "t.x"⟩] ∧
      Before descriptor.beans ⟨"m", "t.x"⟩ ⟨"m", "b"⟩ ∧
      descriptor.requiredSockets = [⟨"m", "s"⟩] ∧ descriptor.optionalSockets = [⟨"m", "o"⟩] ∧
      (descriptor.wires.map Wire.link).map (·.source) = ["m:b", "m:b", "m:t.y", "m:b"] ∧
      resolved.bean? ⟨"m", "t.x"⟩ =
        some { name := ⟨"m", "t.x"⟩, strategy := .prototype, destroy := some "close" } ∧
      resolved.bean? ⟨"m", "t.y"⟩ = none := by
  let g := Graph.build stocked
  have h : resolve {} stocked =
      .ok ⟨1, g, [1, 2, 3, 4, 5, 0], some (.describe 1 g [1, 2, 3, 4, 5, 0])⟩ :=
    resolve_eq_ok_iff.mpr ⟨by cbv, by cbv, _, by cbv, rfl⟩
  obtain ⟨descriptor, hd, hperm, hbefore, -, -, hrequired, hoptional, -, hlinks, hbean⟩ :=
    resolve_keeps_declarations h rfl
  have hreaches : g.Reaches 0 2 := .single ⟨⟨0, 2, "x", false⟩, by decide, rfl, rfl⟩
  refine ⟨_, descriptor, h, rfl, hd, hperm, hbefore 0 2 _ _ rfl rfl hreaches, hrequired, hoptional,
    by rw [hlinks]; rfl, (hbean _ _).mpr ⟨by simp [stocked], by decide⟩, ?_⟩
  refine Option.eq_none_iff_forall_ne_some.mpr fun bean hfound => ?_
  obtain ⟨hmem, hname⟩ := (hbean _ _).mp hfound
  revert hname
  fin_cases hmem <;> decide

end Injection
