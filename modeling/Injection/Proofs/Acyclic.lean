import Injection.Proofs.Anchors
import Injection.Proofs.Resolution

/-!
# Three tests for cycles

Three computations tell whether a graph has a cycle: the table of components, the list of cycles,
and the schedule, which comes to a halt before the nodes of a cycle. They agree on every graph of a
module. So a module is resolved exactly if it is valid and none of its nodes reaches itself, and a
fault for cycles always shows one.

## Main definitions

* `Graph.StronglyConnected` — whether lists of nodes are the strongly connected components.
* `Graph.isCyclicIn` — the test by the sizes of the components.

A schedule that has come to a halt leaves nodes each of which waits for another one of them. Walks
along such nodes can be made as long as one likes, so that some node comes up twice.
-/

namespace Injection

open Relation

/-! ## Walks that can always go on -/

section Stuck

variable {edges : List Edge} {waits : Nat → Prop} {v : Nat}

theorem Walk.exists_of_forall_exists (h : ∀ v, waits v → ∃ u, Adjacent edges v u ∧ waits u)
    (hv : waits v) (n : Nat) :
    ∃ es w, Walk edges v es w ∧ es.length = n ∧ ∀ e ∈ es, waits e.source := by
  induction n generalizing v with
  | zero => exact ⟨[], v, .nil v, rfl, by simp⟩
  | succ n ih =>
    obtain ⟨_, ⟨e, he, rfl, rfl⟩, hu⟩ := h v hv
    obtain ⟨es, w, hwalk, hlength, hwaits⟩ := ih hu
    exact ⟨e :: es, w, .cons he hwalk, by simp [hlength], by simpa using ⟨hv, hwaits⟩⟩

/-- If some nodes below a bound wait, and each of them for another one, there is a loop. -/
theorem exists_loop_of_waits {bound : Nat} (hlt : ∀ v, waits v → v < bound)
    (h : ∀ v, waits v → ∃ u, Adjacent edges v u ∧ waits u) (hv : waits v) :
    ∃ loop, IsLoop edges loop := by
  -- a walk with more edges than there are nodes leaves some node twice
  obtain ⟨es, w, hwalk, hlength, hwaits⟩ := Walk.exists_of_forall_exists h hv (bound + 1)
  refine hwalk.nodup_or_exists_loop.resolve_left fun ⟨hnodup, _⟩ => ?_
  have hsub : es.map (·.source) ⊆ List.range bound := by
    intro i hi
    obtain ⟨e, he, rfl⟩ := List.mem_map.mp hi
    exact List.mem_range.mpr (hlt _ (hwaits e he))
  have hle := (List.subperm_of_subset hnodup hsub).length_le
  simp only [List.length_map, List.length_range] at hle
  omega

end Stuck

namespace Graph

variable {g : Graph} {parts : List (List Nat)} {i j : Nat}

namespace Sound

variable (hs : g.Sound)

include hs

/-- There is no order exactly if some node reaches itself. -/
theorem schedule?_eq_none_iff : g.schedule? = none ↔ ∃ i, g.Reaches i i := by
  constructor
  · intro hnone
    let last := Schedule.run g g.order (.initial g)
    have hlast : Schedule.Sound g [] last := (Schedule.Sound.initial g).run hs g.order
    have hlength : last.emitted.length ≠ g.order := by
      intro he
      simp [schedule?, last, he] at hnone
    have hready : last.ready = [] :=
      (Schedule.ready_run_eq_nil_or _ _).resolve_right fun h =>
        hlength (h.trans (Nat.zero_add _))
    -- of the nodes that are not there, each waits for another one
    have hwaits : ∀ v, v < g.order ∧ v ∉ last.emitted →
        ∃ u, Adjacent g.edges v u ∧ u < g.order ∧ u ∉ last.emitted := by
      rintro v ⟨hlt, hnew⟩
      by_contra hno
      have heligible : g.Eligible last.emitted v := by
        refine ⟨hlt, hnew, fun u hu => ?_⟩
        by_contra hu'
        exact hno ⟨u, hu, hs.lt_of_adjacent hu, hu'⟩
      have hmem := hlast.mem_ready_iff.mpr heligible
      rw [hready] at hmem
      cases hmem
    have hleft : ∃ v < g.order, v ∉ last.emitted := by
      by_contra hno
      push Not at hno
      have hsub : List.range g.order ⊆ last.emitted := fun v hv =>
        hno v (List.mem_range.mp hv)
      have hle := (List.subperm_of_subset List.nodup_range hsub).length_le
      rw [List.length_range] at hle
      exact hlength (le_antisymm hlast.emitted.length_le hle)
    obtain ⟨v, hv⟩ := hleft
    obtain ⟨loop, hloop⟩ := exists_loop_of_waits (fun _ h => h.1) hwaits hv
    obtain ⟨e, he⟩ := List.exists_mem_of_ne_nil loop hloop.nonempty
    exact ⟨e.source, hloop.transGen he he⟩
  · rintro ⟨i, hi⟩
    cases horder : g.schedule? with
    | none => rfl
    | some order =>
      obtain ⟨j, ⟨e, he, rfl, -⟩, -⟩ := TransGen.head'_iff.mp hi
      have hperm := hs.perm_of_schedule? horder
      have hmem : e.source ∈ order :=
        hperm.mem_iff.mpr (List.mem_range.mpr (hs.source_lt e he))
      have hnodup : order.Nodup := hperm.nodup_iff.mpr List.nodup_range
      exact absurd rfl ((hs.before_of_reaches horder hmem hi).ne hnodup)

theorem cycles_ne_nil_iff_reaches : g.cycles ≠ [] ↔ ∃ i, g.Reaches i i := by
  rw [Ne, hs.cycles_eq_nil_iff]
  push Not
  rfl

/-- There is an order exactly if there are no cycles. -/
theorem schedule?_ne_none_iff : g.schedule? ≠ none ↔ g.cycles = [] := by
  rw [Ne, hs.schedule?_eq_none_iff, ← hs.cycles_ne_nil_iff_reaches, not_not]

end Sound

/-! ## Components -/

theorem Sound.isCyclic_iff (hs : g.Sound) : g.isCyclic = true ↔ ∃ i, g.Reaches i i := by
  simp only [isCyclic, components_eq, List.any_map, List.any_eq_true, List.mem_range,
    Function.comp_apply]
  constructor
  · rintro ⟨i, hi, hsome⟩
    exact ⟨i, (hs.isSome_leader?_iff hi).mp hsome⟩
  · rintro ⟨i, hi⟩
    obtain ⟨j, ⟨e, he, rfl, -⟩, -⟩ := TransGen.head'_iff.mp hi
    have hlt := hs.source_lt e he
    exact ⟨_, hlt, (hs.isSome_leader?_iff hlt).mpr hi⟩

/-- Lists of nodes that are the strongly connected components of a graph: each node is in one of
them, together with exactly the nodes that it leads to and that lead back to it. -/
structure StronglyConnected (g : Graph) (parts : List (List Nat)) : Prop where
  covers : ∀ i < g.order, ∃ part ∈ parts, i ∈ part
  distinct : ∀ part ∈ parts, part.Nodup
  connected : ∀ part ∈ parts, ∀ i ∈ part, ∀ j, j ∈ part ↔
    ReflTransGen (Adjacent g.edges) i j ∧ ReflTransGen (Adjacent g.edges) j i

/-- Whether a component has more than one node, or its first node an edge to itself. -/
def isCyclicIn (g : Graph) (parts : List (List Nat)) : Bool :=
  parts.any fun part =>
    part.length > 1 ||
      part.head?.any fun node => g.edges.any fun e => e.source == node && e.target == node

/-- The test by components sees exactly whether some node reaches itself. -/
theorem Sound.isCyclicIn_iff (hs : g.Sound) (hparts : g.StronglyConnected parts) :
    g.isCyclicIn parts = true ↔ ∃ i, g.Reaches i i := by
  simp only [isCyclicIn, List.any_eq_true, Bool.or_eq_true, decide_eq_true_eq,
    Option.any_eq_true, Bool.and_eq_true, beq_iff_eq]
  constructor
  · rintro ⟨part, hpart, hlong | ⟨i, -, e, he, rfl, htarget⟩⟩
    · -- two nodes of a component lead to each other, and so back to themselves
      obtain ⟨i, j, rest, rfl⟩ : ∃ i j rest, part = i :: j :: rest := by
        match part, hlong with
        | i :: j :: rest, _ => exact ⟨i, j, rest, rfl⟩
      have hne : i ≠ j := by
        have hnodup := hparts.distinct _ hpart
        simp only [List.nodup_cons, List.mem_cons, not_or] at hnodup
        exact hnodup.1.1
      obtain ⟨hij, hji⟩ := (hparts.connected _ hpart i (by simp) j).mp (by simp)
      have hreaches := (reflTransGen_iff_eq_or_transGen.mp hij).resolve_left (Ne.symm hne)
      exact ⟨i, hreaches.trans_left hji⟩
    · exact ⟨e.source, .single ⟨e, he, rfl, htarget⟩⟩
  · rintro ⟨i, hi⟩
    obtain ⟨k, hik, hki⟩ := TransGen.head'_iff.mp hi
    obtain ⟨e, he, rfl, rfl⟩ := hik
    obtain ⟨part, hpart, hmem⟩ := hparts.covers _ (hs.source_lt e he)
    have htarget := (hparts.connected part hpart _ hmem e.target).mpr
      ⟨.single ⟨e, he, rfl, rfl⟩, hki⟩
    refine ⟨part, hpart, ?_⟩
    match part, hmem, htarget with
    | [j], hmem, htarget =>
      have hsource := List.mem_singleton.mp hmem
      exact .inr ⟨j, rfl, e, he, hsource, List.mem_singleton.mp htarget⟩
    | _ :: _ :: _, _, _ => exact .inl (by simp)

end Graph

/-! ## Resolving -/

section Resolve

variable {options : Options} {m : ModuleDecl}

theorem ModuleDecl.validate_ne_cycles {home : ModuleName} {diagnostics : List Diagnostic} :
    m.validate ≠ .error (.cycles home diagnostics) := by
  rw [validate]
  cases m.foreign? <;> cases m.repeated? <;> cases m.dangling? <;> simp

theorem resolve_eq_error_of_validate {fault : ModuleFault} (h : m.validate = .error fault) :
    resolve options m = .error fault := by
  simp [resolve, h, bind, Except.bind]

theorem resolve_eq_error_of_cycles (h : m.validate = .ok ()) (hc : (Graph.build m).cycles ≠ []) :
    resolve options m =
      .error (.cycles m.name (diagnoseCycles m.name (Graph.build m).cycles)) := by
  simp [resolve, h, hc, bind, Except.bind]
  rfl

/-- A valid module without cycles has an order, and is resolved. -/
theorem exists_resolve_eq_ok (h : m.validate = .ok ()) (hc : (Graph.build m).cycles = []) :
    ∃ resolved, resolve options m = .ok resolved := by
  have horder := (Graph.sound_build m).schedule?_ne_none_iff.mpr hc
  obtain ⟨order, horder⟩ := Option.ne_none_iff_exists'.mp horder
  exact ⟨_, resolve_eq_ok_iff.mpr ⟨h, hc, order, horder, rfl⟩⟩

theorem hasDescriptor_of_schedule? {order : List Nat} (hv : m.validate = .ok ())
    (hs : (Graph.build m).schedule? = some order) :
    m.HasDescriptor (.describe m.version (Graph.build m) order) := by
  have hc : (Graph.build m).cycles = [] :=
    (Graph.sound_build m).schedule?_ne_none_iff.mp (hs ▸ Option.some_ne_none order)
  exact hasDescriptor_iff.mpr ⟨hv, hc, order, hs, rfl⟩

theorem hasDescriptor_navigating :
    navigating.HasDescriptor (.describe 1 (Graph.build navigating) [1, 2, 0]) :=
  hasDescriptor_of_schedule? (by cbv) (by cbv)

theorem exists_resolve_iff : (∃ resolved, resolve options m = .ok resolved) ↔
    m.validate = .ok () ∧ (Graph.build m).cycles = [] := by
  constructor
  · rintro ⟨resolved, h⟩
    obtain ⟨hvalid, hnil, -⟩ := resolve_eq_ok_iff.mp h
    exact ⟨hvalid, hnil⟩
  · rintro ⟨hvalid, hnil⟩
    exact exists_resolve_eq_ok hvalid hnil

/-- A fault for cycles comes from listed cycles. -/
theorem resolve_eq_error_cycles_iff {home : ModuleName} {diagnostics : List Diagnostic} :
    resolve options m = .error (.cycles home diagnostics) ↔
      m.validate = .ok () ∧ (Graph.build m).cycles ≠ [] ∧ home = m.name ∧
        diagnostics = diagnoseCycles m.name (Graph.build m).cycles := by
  cases hv : m.validate with
  | error fault =>
    rw [resolve_eq_error_of_validate hv]
    refine iff_of_false (fun h => ?_) (by simp)
    obtain rfl := Except.error.inj h
    exact ModuleDecl.validate_ne_cycles hv
  | ok _ =>
    by_cases hc : (Graph.build m).cycles = []
    · obtain ⟨resolved, h⟩ : ∃ resolved, resolve options m = .ok resolved :=
        exists_resolve_eq_ok hv hc
      simp [h, hc]
    · rw [resolve_eq_error_of_cycles hv hc]
      simp only [Except.error.injEq, ModuleFault.cycles.injEq]
      grind

/-- The tests for cycles agree: the table of components, which is the test by any list of the
strongly connected components, the list of cycles, and the schedule. So a module is resolved exactly
if it is valid and no node of its graph reaches itself, and a fault for cycles lists what was found
and is not empty. -/
theorem cycle_tests_agree (options : Options) (m : ModuleDecl) :
    let g := Graph.build m
    (g.isCyclic = true ↔ ∃ i, g.Reaches i i) ∧
    (∀ parts, g.StronglyConnected parts → g.isCyclicIn parts = g.isCyclic) ∧
    (g.cycles ≠ [] ↔ ∃ i, g.Reaches i i) ∧
    (g.schedule? = none ↔ ∃ i, g.Reaches i i) ∧
    ((∃ resolved, resolve options m = .ok resolved) ↔
      m.validate = .ok () ∧ ¬ ∃ i, g.Reaches i i) ∧
    ∀ home diagnostics, resolve options m = .error (.cycles home diagnostics) →
      g.cycles ≠ [] ∧ home = m.name ∧ diagnostics = diagnoseCycles m.name g.cycles ∧
        diagnostics ≠ [] := by
  intro g
  have hs : g.Sound := Graph.sound_build m
  refine ⟨hs.isCyclic_iff, fun parts hparts => ?_, hs.cycles_ne_nil_iff_reaches,
    hs.schedule?_eq_none_iff, ?_, fun home diagnostics h => ?_⟩
  · rw [Bool.eq_iff_iff, hs.isCyclicIn_iff hparts, hs.isCyclic_iff]
  · rw [exists_resolve_iff, ← hs.cycles_ne_nil_iff_reaches, not_not]
  · obtain ⟨-, hc, hhome, rfl⟩ := resolve_eq_error_cycles_iff.mp h
    exact ⟨hc, hhome, rfl, diagnoseCycles_ne_nil hc⟩

/-- Two beans that depend on each other. -/
def twins : ModuleDecl where
  name := "m"
  beans := [
    { name := ⟨"m", "a"⟩, dependencies := [⟨⟨"m", "b"⟩, "b", .direct⟩] },
    { name := ⟨"m", "b"⟩, dependencies := [⟨⟨"m", "a"⟩, "a", .direct⟩] }]

theorem stronglyConnected_twins : (Graph.build twins).StronglyConnected [[0, 1]] := by
  have hedges : (Graph.build twins).edges = [⟨0, 1, "b", false⟩, ⟨1, 0, "a", false⟩] := by cbv
  have horder : (Graph.build twins).order = 2 := by cbv
  have hlt : ∀ i ∈ [0, 1], i < 2 := by decide
  have hreach : ∀ i < 2, ∀ j < 2,
      ReflTransGen (Adjacent (Graph.build twins).edges) i j := by
    have hab : Adjacent (Graph.build twins).edges 0 1 := by simp [hedges, Adjacent]
    have hba : Adjacent (Graph.build twins).edges 1 0 := by simp [hedges, Adjacent]
    intro i hi j hj
    interval_cases i <;> interval_cases j
    · exact .refl
    · exact .single hab
    · exact .single hba
    · exact .refl
  refine ⟨fun i hi => ⟨[0, 1], by simp, ?_⟩, by simp, fun part hpart i hi j => ?_⟩
  · simp only [horder] at hi
    interval_cases i <;> simp
  · obtain rfl := List.mem_singleton.mp hpart
    constructor
    · exact fun hj => ⟨hreach i (hlt i hi) j (hlt j hj), hreach j (hlt j hj) i (hlt i hi)⟩
    · rintro ⟨hij, -⟩
      have hj := (Graph.sound_build twins).lt_of_reflTransGen (horder ▸ hlt i hi) hij
      simp only [horder] at hj
      interval_cases j <;> simp

theorem cycle_tests_agree_twins :
    (Graph.build twins).isCyclic = true ∧ (Graph.build twins).isCyclicIn [[0, 1]] = true ∧
      (Graph.build twins).schedule? = none := by
  have hagree := cycle_tests_agree {} twins
  have hcyclic : (Graph.build twins).isCyclic = true := by cbv
  refine ⟨hcyclic, ?_, hagree.2.2.2.1.mpr (hagree.1.mp hcyclic)⟩
  exact (hagree.2.1 _ stronglyConnected_twins).trans hcyclic

end Resolve

end Injection
