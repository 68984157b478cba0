import Injection.Proofs.Crossing
import Injection.Proofs.Layout
import Injection.Proofs.Reporting

/-!
# Reports of cycles through components

The check of the root finds cycles of the view in which beans stand for those of the components. It
drops the messages at names of other modules. None of the cycles is lost by that: since the
prepared root has no cycle, every cycle of the view leaves a bean that stands for one of a
component, and what such a bean depends on is a bean of the root.

## Main definitions

* `Graph.ReportsWithin` — whether some messages are those of a cycle at the names of one module.
-/

namespace Injection

open Relation

variable {options : Options} {root : ModuleDecl} {available : List ModuleDecl}
  {resolved : Resolved}

/-! ## The nodes of the view -/

/-- The node that is written like a bean is the bean, if the declared names are different. -/
theorem Graph.getElem?_of_mem_beans {m : ModuleDecl} (hm : m.Closed) (hnodup : m.declared.Nodup)
    {bean : Bean} (hb : bean ∈ m.beans) {i : Nat} (hi : i < (build m).order)
    (hname : ((build m).nameAt i).rendered = bean.name.rendered) :
    (build m).nodes[i]? = some (.bean bean) := by
  have hmem : Node.bean bean ∈ (build m).nodes := by
    rw [nodes_build hm hnodup]
    simp [hb]
  obtain ⟨j, hj⟩ := List.getElem?_of_mem hmem
  have hlt : j < (build m).order := (List.getElem?_eq_some_iff.mp hj).1
  have hbean : (build m).nameAt j = bean.name := by simp [nameAt, hj, Node.name]
  rwa [(sound_build m).rendered_nameAt_inj hi hlt (hname.trans (congrArg _ hbean.symm))]

theorem Graph.leads_of_mem_edges {g : Graph} {e : Edge} (he : e ∈ g.edges) :
    g.Leads (g.nameAt e.source).rendered (g.nameAt e.target).rendered :=
  ⟨g.linkOf e, g.links_eq ▸ List.mem_map_of_mem he, rfl, rfl⟩

theorem nodup_declared_boundaryView (h : (preparedRoot options root available).declared.Nodup) :
    (boundaryView options root available).declared.Nodup :=
  (perm_declared_withStandIns nodup_names_pluggedIn).nodup_iff.mpr h

/-! ## Cycles of the view -/

section Cycles

variable (h : resolve options (preparedRoot options root available) = .ok resolved)

include h

/-- Every closed walk of the view takes a detour: without one it is a closed walk of the prepared
root. -/
theorem exists_detour_of_walk {u : Nat} {es : List Edge}
    (hwalk : Walk (Graph.build (boundaryView options root available)).edges u es u)
    (hne : es ≠ []) :
    ∃ e ∈ es, Detour options root available
      ((Graph.build (boundaryView options root available)).nameAt e.source).rendered
      ((Graph.build (boundaryView options root available)).nameAt e.target).rendered := by
  by_contra hnone
  have hlink : ∀ i j, Adjacent es i j →
      (Graph.build (preparedRoot options root available)).Leads
        ((Graph.build (boundaryView options root available)).nameAt i).rendered
        ((Graph.build (boundaryView options root available)).nameAt j).rendered := by
    rintro _ _ ⟨e, he, rfl, rfl⟩
    refine ((leads_boundaryView_iff (closed_of_resolve h)).mp
      (Graph.leads_of_mem_edges (hwalk.mem_edges he))).resolve_right fun hdetour => ?_
    exact hnone ⟨e, he, hdetour⟩
  have hround : TransGen (Adjacent es) u u := (hwalk.of_forall_mem fun _ he => he).transGen hne
  exact (Graph.sound_build _).cycles_ne_nil_iff.mpr
    ⟨_, TransGen.lift _ hlink _ _ hround⟩ (resolve_eq_ok_iff.mp h).2.1

/-- Every closed walk of the view leaves a stand-in, and then a bean of the root. -/
theorem exists_standIn_of_walk {u : Nat} {es : List Edge}
    (hwalk : Walk (Graph.build (boundaryView options root available)).edges u es u)
    (hne : es ≠ []) :
    ∃ e ∈ es,
      (∃ standIn ∈ standIns root (pluggedIn options root available),
        (Graph.build (boundaryView options root available)).nodes[e.source]? =
          some (.bean standIn)) ∧
      ∃ f ∈ es, f.source = e.target ∧ ∃ bean ∈ root.beans,
        (Graph.build (boundaryView options root available)).nodes[f.source]? =
          some (.bean bean) := by
  have hclosed := closed_of_resolve h
  have hs := Graph.sound_build (boundaryView options root available)
  have hbean : ∀ bean ∈ root.beans ++ standIns root (pluggedIn options root available),
      ∀ e ∈ es, ((Graph.build (boundaryView options root available)).nameAt e.source).rendered =
        bean.name.rendered →
      (Graph.build (boundaryView options root available)).nodes[e.source]? =
        some (.bean bean) := fun bean hb e he =>
    Graph.getElem?_of_mem_beans (closed_boundaryView hclosed)
      (nodup_declared_boundaryView (nodup_declared_of_resolve h)) hb
      (hs.source_lt e (hwalk.mem_edges he))
  obtain ⟨e, he, name, hname, plugged, hsupplies, hsource, key, provider, hbehind, htarget⟩ :=
    exists_detour_of_walk h hwalk hne
  have hstandIn := mem_standIns_iff.mpr ⟨name, hname, plugged, hsupplies, rfl⟩
  refine ⟨e, he, ⟨_, hstandIn, hbean _ (List.mem_append_right _ hstandIn) e he hsource.symm⟩, ?_⟩
  obtain ⟨f, hf, hnext⟩ := hwalk.exists_source_eq_target he
  obtain ⟨-, -, -, -, hget⟩ := mem_providersBehind_iff.mp hbehind
  have hdeclared := ModuleDecl.declares_iff_mem.mp (hsupplies.1.declares_of_get? hget)
  rw [htarget, ← hnext] at hdeclared
  obtain ⟨bean, hb, he⟩ := exists_bean_of_leads_boundaryView hclosed hdeclared
    (Graph.leads_of_mem_edges (hwalk.mem_edges hf))
  exact ⟨f, hf, hnext, bean, hb, hbean bean (List.mem_append_left _ hb) f hf he.symm⟩

end Cycles

/-! ## Messages -/

/-- Whether some messages report a cycle of a graph at the names of a module: one at each of its
nodes that reports cycles and is named in the module, in the order of the steps, and at least one.
Each shows the cycle. -/
structure Graph.ReportsWithin (g : Graph) (home : ModuleName) (c : Cycle)
    (messages : List Diagnostic) : Prop where
  nonempty : messages ≠ []
  anchors : messages.map (·.anchor) = c.names.filter fun name =>
    name.modulePart == home && (g.node? name).any Node.anchorsReports
  shown : ∀ d ∈ messages,
    d.message = s!"Bean {d.anchor} forms a cycle in module {home}\n{c.diagram}"

theorem Graph.map_anchors_eq {g : Graph} {home : ModuleName} {cycles : List Cycle}
    {blocks : List (List Diagnostic)} (h : List.Forall₂ (g.ReportsWithin home) cycles blocks) :
    blocks.map (List.map (·.anchor)) = cycles.map fun c => c.names.filter fun name =>
      name.modulePart == home && (g.node? name).any Node.anchorsReports := by
  induction h with
  | nil => rfl
  | cons hblock _ ih => rw [List.map_cons, List.map_cons, hblock.anchors, ih]

/-- The messages of a cycle at the names of a module, if there is a node that has one. -/
theorem Graph.Reports.within {g : Graph} {home : ModuleName} {c : Cycle}
    {messages : List Diagnostic} (h : g.Reports home c messages) {name : QualifiedName}
    (hname : name ∈ c.names) (hreports : (g.node? name).any Node.anchorsReports = true)
    (hhome : name.modulePart = home) :
    g.ReportsWithin home c (messages.filter fun d => d.anchor.modulePart == home) := by
  have hanchors : (messages.filter fun d => d.anchor.modulePart == home).map (·.anchor) =
      c.names.filter fun name =>
        name.modulePart == home && (g.node? name).any Node.anchorsReports := by
    rw [← List.filter_filter, ← h.anchors, List.filter_map]
    rfl
  refine ⟨fun hnil => ?_, hanchors, fun d hd => h.shown d (List.mem_filter.mp hd).1⟩
  rw [hnil] at hanchors
  have hmem : name ∈ c.names.filter fun name =>
      name.modulePart == home && (g.node? name).any Node.anchorsReports :=
    List.mem_filter.mpr ⟨hname, by simp [hhome, hreports]⟩
  rw [← hanchors] at hmem
  cases hmem

theorem Graph.exists_node_of_mem_anchors {g : Graph} {c : Cycle} (hc : c ∈ g.cycles)
    {anchor : QualifiedName} (h : anchor ∈ c.anchors) :
    ∃ node ∈ g.nodes, node.anchorsReports = true ∧ node.name = anchor := by
  obtain ⟨loop, -, rfl⟩ := List.mem_map.mp hc
  obtain ⟨e, -, hanchor⟩ := List.mem_filterMap.mp h
  obtain ⟨node, hnode, rfl⟩ := Option.map_eq_some_iff.mp hanchor
  obtain ⟨hnode, hreports⟩ := Option.filter_eq_some_iff.mp hnode
  exact ⟨node, List.mem_of_getElem? hnode, hreports, rfl⟩

/-- A bean that an edge of a loop leaves has a message at the cycle. -/
theorem Graph.Sound.reports_bean {g : Graph} (hs : g.Sound) {loop : List Edge} {e : Edge}
    {bean : Bean} (he : e ∈ loop) (hbean : g.nodes[e.source]? = some (.bean bean)) :
    bean.name ∈ (g.cycleOf loop).names ∧
      (g.node? bean.name).any Node.anchorsReports = true := by
  have hname : g.nameAt e.source = bean.name := by simp [nameAt, hbean, Node.name]
  constructor
  · rw [cycleOf, Cycle.names, List.map_map]
    exact List.mem_map.mpr ⟨e, he, hname⟩
  · rw [← hname, hs.node?_nameAt (List.getElem?_eq_some_iff.mp hbean).1, hbean]
    rfl

/-- Every cycle of the view passes a bean of the root, which has a message at it. -/
theorem exists_reporting_of_mem_cycles
    (h : resolve options (preparedRoot options root available) = .ok resolved) {c : Cycle}
    (hc : c ∈ (Graph.build (boundaryView options root available)).cycles) :
    ∃ name ∈ c.names,
      ((Graph.build (boundaryView options root available)).node? name).any
        Node.anchorsReports = true ∧ name.modulePart = root.name := by
  obtain ⟨loop, hloop, rfl⟩ := List.mem_map.mp hc
  have hisLoop := Graph.isLoop_of_mem_loops hloop
  obtain ⟨u, hclosed⟩ := hisLoop.closed
  obtain ⟨-, -, -, f, hf, -, bean, hb, hnode⟩ := exists_standIn_of_walk h hclosed hisLoop.nonempty
  obtain ⟨hname, hreports⟩ := (Graph.sound_build _).reports_bean hf hnode
  have hhome := (ModuleDecl.validate_eq_ok_iff.mp (resolve_eq_ok_iff.mp h).1).1 bean hb
  exact ⟨bean.name, hname, hreports, hhome⟩

/-- The check fails with the messages of the view's cycles, if a component is plugged in. -/
theorem checkCrossing_eq_error_iff {components : List Plugged} {fault : ModuleFault} :
    checkCrossing root components = .error fault ↔
      components ≠ [] ∧ (Graph.build (withStandIns root components)).cycles ≠ [] ∧
        fault = .cycles root.name
          ((diagnoseCycles root.name (Graph.build (withStandIns root components)).cycles).filter
            fun d => d.anchor.modulePart == root.name) := by
  cases components with
  | nil => simp [checkCrossing, crossingCycles]
  | cons plugged rest =>
    simp only [checkCrossing, crossingCycles, List.isEmpty_cons, List.isEmpty_iff,
      Bool.false_eq_true, if_false]
    split
    · next hnil => exact iff_of_false (by simp) fun h => h.2.1 hnil
    · next hcycles =>
      exact ⟨fun h => ⟨List.cons_ne_nil _ _, hcycles, (Except.error.inj h).symm⟩,
        fun h => congrArg _ h.2.2.symm⟩

/-- The anchors in the module of the root are its beans, and members that lead to what it names. -/
theorem anchor_of_mem_nodes {node : Node}
    (hnode : node ∈ (Graph.build (boundaryView options root available)).nodes)
    (hreports : node.anchorsReports = true) (hhome : node.name.modulePart = root.name) :
    (∃ bean ∈ root.beans, bean.name = node.name) ∨
      ∃ owner segment, node = .hop owner [segment] ∧ owner.modulePart = root.name := by
  cases node with
  | socket socket => cases hreports
  | hop owner path =>
    obtain ⟨segment, rfl⟩ :=
      List.length_eq_one_iff.mp (by simpa [Node.anchorsReports] using hreports)
    exact .inr ⟨owner, segment, rfl, hhome⟩
  | bean bean =>
    have hmem : bean ∈ (boundaryView options root available).beans := by
      simpa using Graph.mem_declarations_of_mem_nodes rfl hnode
    rcases List.mem_append.mp hmem with hb | hstandIn
    · exact .inl ⟨bean, hb, rfl⟩
    · obtain ⟨name, hname, plugged, -, rfl⟩ := mem_standIns_iff.mp hstandIn
      have hopen := (spec_of_mem_placeholderNames hname).1
      rw [ModuleDecl.leavesOpen, Bool.and_eq_true, bne_iff_ne] at hopen
      exact absurd hhome hopen.1

/-- A root that fails for cycles through components says so at each of them. Every closed walk of
the view leaves a bean that stands for one of a component, and next a bean of the root. The messages
come cycle by cycle, at least one for each; and all of them are at names of the root's module: its
beans, and members of what it names. -/
theorem checkCrossing_reports {fault : ModuleFault}
    (h : resolve options (preparedRoot options root available) = .ok resolved)
    (hfail : checkCrossing root (pluggedIn options root available) = .error fault) :
    let g := Graph.build (boundaryView options root available)
    (rootOutcome options root (pluggedIn options root available)).result =
        .error (.resolve fault) ∧
      (∀ u es, Walk g.edges u es u → es ≠ [] → ∃ e ∈ es,
        (∃ standIn ∈ standIns root (pluggedIn options root available),
          g.nodes[e.source]? = some (.bean standIn)) ∧
        ∃ f ∈ es, f.source = e.target ∧
          ∃ bean ∈ root.beans, g.nodes[f.source]? = some (.bean bean)) ∧
      g.cycles ≠ [] ∧
      ∃ blocks, fault = .cycles root.name blocks.flatten ∧
        List.Forall₂ (g.ReportsWithin root.name) g.cycles blocks ∧
        ∀ d ∈ blocks.flatten, d.anchor.modulePart = root.name ∧
          ((∃ bean ∈ root.beans, bean.name = d.anchor) ∨
            ∃ owner segment, .hop owner [segment] ∈ g.nodes ∧ owner.modulePart = root.name ∧
              owner.member [segment] = d.anchor) := by
  intro g
  obtain ⟨-, hcycles, rfl⟩ := checkCrossing_eq_error_iff.mp hfail
  have hmessages : ∃ blocks, diagnoseCycles root.name g.cycles = blocks.flatten ∧
      List.Forall₂ (g.Reports root.name) g.cycles blocks :=
    exists_reports_diagnoseCycles fun _ hc => hc
  obtain ⟨blocks, hblocks, hreports⟩ := hmessages
  refine ⟨?_, fun u es => exists_standIn_of_walk h, hcycles,
    blocks.map (List.filter fun d => d.anchor.modulePart == root.name), ?_, ?_, fun d hd => ?_⟩
  · rw [result_rootOutcome h, hfail]
    rfl
  · rw [hblocks, List.filter_flatten]
  · rw [List.forall₂_map_right_iff]
    have hroot := fun c => exists_reporting_of_mem_cycles h (c := c)
    exact ((List.forall₂_and_left _ _).mpr ⟨hroot, hreports⟩).imp
      fun c messages ⟨⟨_, hname, hnode, hhome⟩, hmessages⟩ => hmessages.within hname hnode hhome
  · rw [← List.filter_flatten, ← hblocks] at hd
    obtain ⟨hd, hhome⟩ := List.mem_filter.mp hd
    obtain ⟨c, hc, hd⟩ := List.mem_flatMap.mp hd
    obtain ⟨anchor, hanchor, rfl⟩ := List.mem_map.mp hd
    obtain ⟨node, hnode, hreported, rfl⟩ := Graph.exists_node_of_mem_anchors hc hanchor
    have hhome : node.name.modulePart = root.name := by simpa using hhome
    refine ⟨hhome, (anchor_of_mem_nodes hnode hreported hhome).imp_right ?_⟩
    rintro ⟨owner, segment, rfl, howner⟩
    exact ⟨owner, segment, hnode, howner, rfl⟩

/-- A root that plugs into the pump what navigates to a member of it. -/
def selfNavigating : ModuleDecl where
  name := "app"
  beans := [{ name := ⟨"app", "q"⟩, dependencies := [⟨⟨"c", "p"⟩, "p", .nested ["x"]⟩] }]
  imports := [pumpImport]

/-- The cycle has a message at the bean of the root, and none at the member and the stand-in. -/
theorem checkCrossing_reports_selfNavigating :
    (Graph.build (boundaryView { generateDescriptor := false } selfNavigating [pump])).cycles.map
        (·.names.map QualifiedName.rendered) = [["app:q", "c:p.x", "c:p"]] ∧
      ∃ (resolved : Resolved) (blocks : List (List Diagnostic)),
        resolve { generateDescriptor := false }
          (preparedRoot { generateDescriptor := false } selfNavigating [pump]) = .ok resolved ∧
        checkCrossing selfNavigating
            (pluggedIn { generateDescriptor := false } selfNavigating [pump]) =
          .error (.cycles "app" blocks.flatten) ∧
        blocks.map (List.map fun d => d.anchor.rendered) = [["app:q"]] := by
  have hok : (resolve { generateDescriptor := false }
      (preparedRoot { generateDescriptor := false } selfNavigating [pump])).toOption.isSome := by
    cbv
  have hnames : (Graph.build (boundaryView { generateDescriptor := false } selfNavigating
      [pump])).cycles.map (·.names.map QualifiedName.rendered) = [["app:q", "c:p.x", "c:p"]] := by
    cbv
  have hplugged : pluggedIn { generateDescriptor := false } selfNavigating [pump] ≠ [] :=
    List.ne_nil_of_mem (mem_pluggedIn_iff.mpr
      (⟨List.mem_cons_self, rfl, rfl⟩ : Wired _ selfNavigating [pump] ⟨pumpImport, pump⟩))
  have hcycles : (Graph.build (boundaryView { generateDescriptor := false } selfNavigating
      [pump])).cycles ≠ [] := by
    intro hnil
    rw [hnil] at hnames
    cases hnames
  have hfail := checkCrossing_eq_error_iff.mpr ⟨hplugged, hcycles, rfl⟩
  refine ⟨hnames, ?_⟩
  cases h : resolve { generateDescriptor := false }
      (preparedRoot { generateDescriptor := false } selfNavigating [pump]) with
  | error fault => rw [h] at hok; cases hok
  | ok resolved =>
    obtain ⟨-, -, -, blocks, hfault, hreports, -⟩ := checkCrossing_reports h hfail
    refine ⟨resolved, blocks, rfl, hfail.trans (congrArg _ hfault), ?_⟩
    have hanchors := congrArg (List.map (List.map QualifiedName.rendered))
      (Graph.map_anchors_eq hreports)
    rw [List.map_map] at hanchors
    refine .trans (by simp) (hanchors.trans ?_)
    cbv

end Injection
