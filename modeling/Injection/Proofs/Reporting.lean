import Injection.Proofs.Acyclic

/-!
# Reports of cycles

A module that is refused for its cycles says so at each of them: the messages stand in the order in
which the cycles are found, those of one cycle in the order of its steps, and no cycle is without
one.

## Main definitions

* `Graph.Reports` — whether some messages are those of a cycle.
-/

namespace Injection

/-- Whether some messages report a cycle of a graph: one at each of its nodes that reports cycles,
in the order of the steps, and at least one. Each shows the cycle. -/
structure Graph.Reports (g : Graph) (home : ModuleName) (c : Cycle) (messages : List Diagnostic) :
    Prop where
  nonempty : messages ≠ []
  anchors : messages.map (·.anchor) =
    c.names.filter fun name => (g.node? name).any Node.anchorsReports
  shown : ∀ d ∈ messages,
    d.message = s!"Bean {d.anchor} forms a cycle in module {home}\n{c.diagram}"

/-- The messages of some cycles of a module come cycle by cycle. -/
theorem exists_reports_diagnoseCycles {m : ModuleDecl} {home : ModuleName} {cycles : List Cycle}
    (h : ∀ c ∈ cycles, c ∈ (Graph.build m).cycles) :
    ∃ blocks, diagnoseCycles home cycles = blocks.flatten ∧
      List.Forall₂ ((Graph.build m).Reports home) cycles blocks := by
  induction cycles with
  | nil => exact ⟨[], rfl, .nil⟩
  | cons c rest ih =>
    obtain ⟨hc, hrest⟩ := List.forall_mem_cons.mp h
    obtain ⟨blocks, hblocks, hreports⟩ := ih hrest
    refine ⟨diagnoseCycles home [c] :: blocks, ?_, .cons ⟨?_, ?_, ?_⟩ hreports⟩
    · rw [List.flatten_cons, ← hblocks]
      simp [diagnoseCycles]
    · simpa [diagnoseCycles] using Graph.anchors_ne_nil hc
    · simp [diagnoseCycles, Function.comp_def, Graph.anchors_eq hc]
    · simp [diagnoseCycles]

/-- No cycle of a module is passed over in silence. Sockets are left by no edge, and nested edges
lead down from hop to hop until a declared node is reached; so every closed walk leaves a bean, and
every listed cycle is reported somewhere. A fault for cycles has the messages of the listed cycles,
in their order. -/
theorem resolve_reports_cycles (options : Options) (m : ModuleDecl) :
    let g := Graph.build m
    (∀ e ∈ g.edges, ∀ socket, g.nodes[e.source]? ≠ some (.socket socket)) ∧
    (∀ u es v, Walk (g.edges.filter (·.nested)) u es v → v + es.length ≤ u) ∧
    (∀ i owner path, g.nodes[i]? = some (.hop owner path) → ∃ es j node,
      Walk (g.edges.filter (·.nested)) i es j ∧ g.nodes[j]? = some node ∧ node.isHop = false) ∧
    (∀ u es, Walk g.edges u es u → es ≠ [] →
      ∃ e ∈ es, ∃ bean, g.nodes[e.source]? = some (.bean bean)) ∧
    (∀ c ∈ g.cycles, c.anchors ≠ []) ∧
    ∀ home diagnostics, resolve options m = .error (.cycles home diagnostics) →
      g.cycles ≠ [] ∧ home = m.name ∧ ∃ blocks, diagnostics = blocks.flatten ∧
        List.Forall₂ (g.Reports home) g.cycles blocks := by
  intro g
  have hl : g.Layered := Graph.layered_build m
  refine ⟨fun e he => hl.source_ne_socket he, fun u es v h => h.add_length_le fun e he => ?_,
    fun i owner path => hl.exists_walk_nested (Graph.sound_build m), fun u es => hl.exists_bean,
    fun c => Graph.anchors_ne_nil, fun home diagnostics h => ?_⟩
  · obtain ⟨hmem, hnested⟩ := List.mem_filter.mp (h.mem_edges he)
    exact hl.lt_of_nested hmem hnested
  · obtain ⟨-, hc, hhome, rfl⟩ := resolve_eq_error_cycles_iff.mp h
    obtain ⟨blocks, hblocks, hreports⟩ := exists_reports_diagnoseCycles fun c hc => hc
    exact ⟨hc, hhome, blocks, hhome ▸ hblocks, hreports⟩

/-- A bean that depends on a member of a member of a bean that depends on it. -/
def entwined : ModuleDecl where
  name := "m"
  beans := [
    { name := ⟨"m", "a"⟩, dependencies := [⟨⟨"m", "b"⟩, "y", .nested ["x", "y"]⟩] },
    { name := ⟨"m", "b"⟩, dependencies := [⟨⟨"m", "a"⟩, "a", .direct⟩] }]

theorem resolve_reports_entwined :
    ∃ diagnostics, resolve {} entwined = .error (.cycles "m" diagnostics) ∧
      diagnostics.map (·.anchor.rendered) = ["m:a", "m:b.x", "m:b"] ∧
      ∃ blocks, diagnostics = blocks.flatten ∧
        List.Forall₂ ((Graph.build entwined).Reports "m") (Graph.build entwined).cycles blocks := by
  have hanchors : (Graph.build entwined).cycles.map (·.anchors.map QualifiedName.rendered) =
      [["m:a", "m:b.x", "m:b"]] := by cbv
  have hcycles : (Graph.build entwined).cycles ≠ [] := by
    intro hnil
    rw [hnil] at hanchors
    cases hanchors
  have h : resolve {} entwined =
      .error (.cycles "m" (diagnoseCycles "m" (Graph.build entwined).cycles)) :=
    resolve_eq_error_of_cycles (by cbv) hcycles
  have hlaw := resolve_reports_cycles {} entwined
  refine ⟨_, h, ?_, (hlaw.2.2.2.2.2 _ _ h).2.2⟩
  have hflat := congrArg List.flatten hanchors
  simpa [diagnoseCycles, List.map_flatMap, List.flatMap_def, Function.comp_def] using hflat

end Injection
