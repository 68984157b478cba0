import Injection.Proofs.Component
import Injection.Proofs.Rotation
import Injection.Proofs.Search

/-!
# The listed cycles

The cycles that are listed for a graph are its simple cycles, each once, up to where they start.

## Main definitions

* `Cycle.wires` — the edges between the names of a cycle's steps.
* `Graph.IsCycle` — the steps through different nodes along edges of a graph and back.

A loop of edges survives the search in two ways: none of its edges leaves its component, and the
search that starts at its lowest node comes before the searches that leave that node out.
-/

namespace Injection

open Relation

/-! ## Cycles by their steps -/

namespace Cycle

/-- The name of the node, as it is written, and the label of the edge that leaves it. -/
def Step.key (step : Cycle.Step) : String × String := (step.node.rendered, step.label)

/-- The edges of a cycle: the edge of a step leads to the node of the next step, that of the last
step to the node of the first. -/
def wires (steps : List Cycle.Step) : List Wire :=
  List.zipWith (fun step target => ⟨step.node, target, step.label, step.nested⟩) steps
    ((steps.map (·.node)).rotate 1)

variable {steps : List Cycle.Step}

def Step.ofWire (wire : Wire) : Cycle.Step := ⟨wire.source, wire.label, wire.nested⟩

theorem map_ofWire_wires (steps : List Cycle.Step) : (wires steps).map Step.ofWire = steps := by
  refine List.ext_getElem (by simp [wires]) fun i h h' => ?_
  simp [wires, Step.ofWire]

theorem map_target_wires (steps : List Cycle.Step) :
    (wires steps).map (·.target) = (steps.map (·.node)).rotate 1 := by
  refine List.ext_getElem (by simp [wires]) fun i h h' => ?_
  simp [wires]

end Cycle

namespace Graph

variable {g : Graph} {loop : List Edge} {steps : List Cycle.Step}

/-- Steps through different nodes of a graph, along its edges and back to the first node. -/
structure IsCycle (g : Graph) (steps : List Cycle.Step) : Prop where
  nonempty : steps ≠ []
  distinct : (steps.map (·.node.rendered)).Nodup
  wired : ∀ wire ∈ Cycle.wires steps, wire ∈ g.wires

def wireOf (g : Graph) (e : Edge) : Wire :=
  ⟨g.nameAt e.source, g.nameAt e.target, e.label, e.nested⟩

def stepOf (g : Graph) (e : Edge) : Cycle.Step := ⟨g.nameAt e.source, e.label, e.nested⟩

theorem wires_map_stepOf (h : loop.map (·.target) = (loop.map (·.source)).rotate 1) :
    Cycle.wires (loop.map g.stepOf) = loop.map g.wireOf := by
  have htargets : ((loop.map g.stepOf).map (·.node)).rotate 1 =
      loop.map fun e => g.nameAt e.target := by
    calc ((loop.map g.stepOf).map (·.node)).rotate 1
        = ((loop.map (·.source)).map g.nameAt).rotate 1 := by simp [stepOf, Function.comp_def]
      _ = ((loop.map (·.source)).rotate 1).map g.nameAt := (List.map_rotate ..).symm
      _ = loop.map fun e => g.nameAt e.target := by rw [← h, List.map_map]; rfl
  rw [Cycle.wires, htargets, List.zipWith_map, List.zipWith_self]
  rfl

theorem exists_map_eq {α β : Type} {f : α → β} {as : List α} {bs : List β}
    (h : ∀ b ∈ bs, b ∈ as.map f) : ∃ es : List α, (∀ e ∈ es, e ∈ as) ∧ es.map f = bs := by
  induction bs with
  | nil => exact ⟨[], by simp, rfl⟩
  | cons b bs ih =>
    obtain ⟨hb, hbs⟩ := List.forall_mem_cons.mp h
    obtain ⟨e, he, rfl⟩ := List.mem_map.mp hb
    obtain ⟨es, hes, rfl⟩ := ih hbs
    exact ⟨e :: es, List.forall_mem_cons.mpr ⟨he, hes⟩, rfl⟩

namespace Sound

/-- Nodes with names in a row are those nodes in a row. -/
theorem map_nameAt_inj (hs : g.Sound) {is js : List Nat} (hi : ∀ i ∈ is, i < g.order)
    (hj : ∀ j ∈ js, j < g.order) (h : is.map g.nameAt = js.map g.nameAt) : is = js := by
  have hleft : ∀ {ks : List Nat}, (∀ k ∈ ks, k < g.order) →
      (ks.map g.nameAt).map g.indexOf? = ks.map some := by
    intro ks hks
    rw [List.map_map]
    exact List.map_congr_left fun k hk => hs.indexOf?_nameAt (hks k hk)
  have hsome := congrArg (List.map g.indexOf?) h
  rw [hleft hi, hleft hj] at hsome
  exact List.map_injective_iff.mpr (Option.some_injective Nat) hsome

theorem isCycle_of_isLoop (hs : g.Sound) (h : IsLoop g.edges loop) :
    g.IsCycle (loop.map g.stepOf) := by
  obtain ⟨hne, hsub, hnodup, hends⟩ := IsLoop.iff_map_target.mp h
  refine ⟨by simpa using hne, ?_, ?_⟩
  · rw [List.map_map]
    refine (List.nodup_map_iff_inj_on (List.Nodup.of_map _ hnodup)).mpr fun e he f hf hef => ?_
    have hsource := hs.rendered_nameAt_inj (hs.source_lt e (hsub e he))
      (hs.source_lt f (hsub f hf)) hef
    exact List.inj_on_of_nodup_map hnodup he hf hsource
  · rw [wires_map_stepOf hends]
    intro wire hwire
    obtain ⟨e, he, rfl⟩ := List.mem_map.mp hwire
    exact List.mem_map.mpr ⟨e, hsub e he, rfl⟩

theorem exists_isLoop_of_isCycle (hs : g.Sound) (h : g.IsCycle steps) :
    ∃ loop, IsLoop g.edges loop ∧ loop.map g.stepOf = steps := by
  have hwired : ∀ wire ∈ Cycle.wires steps, wire ∈ g.edges.map g.wireOf := h.wired
  obtain ⟨loop, hsub, hloop⟩ := exists_map_eq hwired
  have hsteps : loop.map g.stepOf = steps := by
    calc loop.map g.stepOf = (loop.map g.wireOf).map Cycle.Step.ofWire := by
          rw [List.map_map]; rfl
      _ = steps := by rw [hloop, Cycle.map_ofWire_wires]
  have htargets : (loop.map (·.target)).map g.nameAt =
      ((loop.map (·.source)).rotate 1).map g.nameAt := by
    calc (loop.map (·.target)).map g.nameAt = (loop.map g.wireOf).map (·.target) := by
          simp [wireOf, Function.comp_def]
      _ = (steps.map (·.node)).rotate 1 := by rw [hloop, Cycle.map_target_wires]
      _ = ((loop.map (·.source)).rotate 1).map g.nameAt := by
          rw [← hsteps, List.map_rotate]; simp [stepOf, Function.comp_def]
  refine ⟨loop, IsLoop.iff_map_target.mpr ⟨?_, hsub, ?_, ?_⟩, hsteps⟩
  · rintro rfl
    exact h.nonempty hsteps.symm
  · have hdistinct := h.distinct
    rw [← hsteps, List.map_map] at hdistinct
    refine List.Nodup.of_map (fun i => (g.nameAt i).rendered) ?_
    rwa [List.map_map]
  · refine hs.map_nameAt_inj ?_ ?_ htargets
    · simpa using fun e he => hs.target_lt e (hsub e he)
    · simpa using fun e he => hs.source_lt e (hsub e he)

end Sound

/-! ## What the searches find -/

variable {components : List (Option Nat)} {exhausted nodes : List Nat}

/-- A loop is found by a search from one of the nodes, which leaves out the nodes before it. -/
theorem mem_loopsFromAll_iff :
    loop ∈ g.loopsFromAll components exhausted nodes ↔
      ∃ front node back, nodes = front ++ node :: back ∧
        loop ∈ g.loopsFrom components (front.reverse ++ exhausted) node := by
  induction nodes generalizing exhausted with
  | nil => simp [loopsFromAll]
  | cons first rest ih =>
    rw [loopsFromAll, List.mem_append, ih]
    constructor
    · rintro (h | ⟨front, node, back, rfl, h⟩)
      · exact ⟨[], first, rest, rfl, h⟩
      · exact ⟨first :: front, node, back, rfl, by simpa using h⟩
    · rintro ⟨front, node, back, hsplit, h⟩
      cases front with
      | nil =>
        obtain ⟨rfl, rfl⟩ := List.cons.inj hsplit
        exact .inl h
      | cons _ front =>
        obtain ⟨rfl, rfl⟩ := List.cons.inj hsplit
        exact .inr ⟨front, node, back, rfl, by simpa using h⟩

theorem isLoop_of_mem_loopsFromAll (h : loop ∈ g.loopsFromAll components exhausted nodes) :
    IsLoop g.edges loop := by
  obtain ⟨front, node, back, -, hfrom⟩ := mem_loopsFromAll_iff.mp h
  have hloop := Search.isLoop_of_mem_loops hfrom
  exact hloop.of_forall_mem fun e he => (List.mem_filter.mp (hloop.mem_edges he)).1

namespace Sound

/-- A loop that starts at its lowest node is found by the search that starts there. -/
theorem mem_loopsFromAll (hs : g.Sound) {e : Edge} {rest : List Edge}
    (h : IsLoop g.edges (e :: rest)) (hle : ∀ f ∈ e :: rest, e.source ≤ f.source) :
    e :: rest ∈ g.loopsFromAll g.components [] (g.cyclicNodes g.components) := by
  have hsource : ∀ f ∈ e :: rest, f.source < g.order := fun f hf => hs.source_lt f (h.mem_edges hf)
  have hcyclic : e.source ∈ g.cyclicNodes g.components :=
    hs.mem_cyclicNodes_iff.mpr ⟨hsource e List.mem_cons_self,
      h.transGen List.mem_cons_self List.mem_cons_self⟩
  obtain ⟨front, back, hsplit⟩ := List.append_of_mem hcyclic
  have hbelow : ∀ i ∈ front, i < e.source := by
    have hascending := pairwise_cyclicNodes (g := g) g.components
    rw [hsplit, List.pairwise_append] at hascending
    exact fun i hi => hascending.2.2 i hi e.source List.mem_cons_self
  have hfollows : ∀ f ∈ e :: rest, follows g.components (front.reverse ++ []) f = true := by
    intro f hf
    obtain ⟨f', hf', hnext⟩ := h.exists_source_eq_target hf
    have hleader := hs.leader?_eq (h.transGen hf hf') (h.transGen hf' hf)
    have hnew : f.target ∉ front := fun hm => by
      have := hbelow f.target hm
      have := hle f' hf'
      omega
    refine follows_eq_true_iff.mpr ⟨?_, by simpa using hnew⟩
    rw [← hnext, getElem?_components (hsource f hf), getElem?_components (hsource f' hf'), hleader]
  refine mem_loopsFromAll_iff.mpr ⟨front, e.source, back, hsplit, ?_⟩
  refine Search.mem_loops_of_isLoop (fun f hf => ?_) (h.of_forall_mem fun f hf => ?_)
  · exact hs.target_lt f (List.mem_filter.mp hf).1
  · exact List.mem_filter.mpr ⟨h.mem_edges hf, hfollows f hf⟩

/-- Every loop is found, from its lowest node on. -/
theorem exists_mem_loopsFromAll (hs : g.Sound) (h : IsLoop g.edges loop) :
    ∃ found ∈ g.loopsFromAll g.components [] (g.cyclicNodes g.components), found ~r loop := by
  have hne : Cycle.keyOf loop ≠ [] := by simpa [Cycle.keyOf] using h.nonempty
  obtain ⟨entry, hentry, hle⟩ := CycleKey.exists_least hne
  obtain ⟨e, he, rfl⟩ := List.mem_map.mp hentry
  obtain ⟨rest, hr, -⟩ := h.exists_cons he
  refine ⟨e :: rest, hs.mem_loopsFromAll (h.of_isRotated hr) fun f hf => ?_, hr.symm⟩
  exact hle (f.source, f.label) (List.mem_map.mpr ⟨f, hr.mem_iff.mpr hf, rfl⟩)

end Sound

/-! ## The listed loops -/

theorem isLoop_of_mem_loops (h : loop ∈ g.loops) : IsLoop g.edges loop :=
  isLoop_of_mem_loopsFromAll ((distinctBy_sublist _ _).mem h)

theorem nodup_keyOf {edges : List Edge} (h : IsLoop edges loop) :
    ((Cycle.keyOf loop).map Prod.fst).Nodup := by
  simpa [Cycle.keyOf, Function.comp_def] using h.distinct

theorem pairwise_loops (g : Graph) :
    g.loops.Pairwise fun a b => ¬ Cycle.keyOf a ~r Cycle.keyOf b := by
  have hnodup : (g.loops.map fun loop => (Cycle.keyOf loop).canonical).Nodup :=
    nodup_map_keepFirst _ _ _
  refine (List.pairwise_map.mp hnodup).imp_of_mem fun {a b} ha _ hne hr => hne ?_
  exact (CycleKey.canonical_eq_iff (nodup_keyOf (isLoop_of_mem_loops ha))).mpr hr

/-- The key of every loop is a rotation of the key of a listed one. -/
theorem Sound.exists_mem_loops (hs : g.Sound) (h : IsLoop g.edges loop) :
    ∃ found ∈ g.loops, Cycle.keyOf found ~r Cycle.keyOf loop := by
  obtain ⟨found, hfound, hr⟩ := hs.exists_mem_loopsFromAll h
  have hkey : (Cycle.keyOf found).canonical ∈
      g.loops.map fun loop => (Cycle.keyOf loop).canonical :=
    (mem_map_keepFirst _).mpr ⟨List.mem_map_of_mem hfound, List.not_mem_nil⟩
  obtain ⟨kept, hkept, he⟩ := List.mem_map.mp hkey
  have hrot := (CycleKey.canonical_eq_iff (nodup_keyOf (isLoop_of_mem_loops hkept))).mp he
  exact ⟨kept, hkept, hrot.trans (hr.map _)⟩

/-- There are cycles exactly if some node reaches itself. -/
theorem Sound.cycles_eq_nil_iff (hs : g.Sound) : g.cycles = [] ↔ ∀ i, ¬ g.Reaches i i := by
  rw [cycles, List.map_eq_nil_iff]
  constructor
  · intro hnil i hi
    obtain ⟨loop, hloop⟩ := exists_loop_of_transGen hi
    obtain ⟨found, hfound, -⟩ := hs.exists_mem_loops hloop
    rw [hnil] at hfound
    cases hfound
  · intro hno
    apply List.eq_nil_iff_forall_not_mem.mpr
    intro loop hloop
    have h := isLoop_of_mem_loops hloop
    obtain ⟨e, he⟩ := List.exists_mem_of_ne_nil loop h.nonempty
    exact hno e.source (h.transGen he he)

/-! ## The listed cycles -/

/-- The key of a cycle is that of its loop, with names for numbers. -/
theorem map_key_stepOf (g : Graph) (loop : List Edge) :
    (loop.map g.stepOf).map Cycle.Step.key =
      (Cycle.keyOf loop).map fun entry => ((g.nameAt entry.1).rendered, entry.2) := by
  simp [Cycle.keyOf, Cycle.Step.key, stepOf]

/-- Loops whose cycles have keys that are rotations of each other have such keys themselves. -/
theorem Sound.isRotated_keyOf (hs : g.Sound) {a b : List Edge} (ha : IsLoop g.edges a)
    (hb : IsLoop g.edges b)
    (h : (a.map g.stepOf).map Cycle.Step.key ~r (b.map g.stepOf).map Cycle.Step.key) :
    Cycle.keyOf a ~r Cycle.keyOf b := by
  -- the numbers of the nodes can be read off from their names
  have hleft : ∀ {loop : List Edge}, IsLoop g.edges loop →
      ((loop.map g.stepOf).map Cycle.Step.key).map
        (fun entry => (g.written.idxOf entry.1, entry.2)) = Cycle.keyOf loop := by
    intro loop hloop
    simp only [Cycle.keyOf, List.map_map]
    apply List.map_congr_left
    intro e he
    exact congrArg (·, e.label) (hs.idxOf_nameAt (hs.source_lt e (hloop.mem_edges he)))
  have hmap := h.map fun entry => (g.written.idxOf entry.1, entry.2)
  rwa [hleft ha, hleft hb] at hmap

/-- The cycles that are listed for the graph of a module are its cycles, each once, up to where
they start. -/
theorem cycles_exact (m : ModuleDecl) :
    (∀ c ∈ (build m).cycles, (build m).IsCycle c.steps) ∧
    (∀ steps, (build m).IsCycle steps →
      ∃ c ∈ (build m).cycles, c.steps.map Cycle.Step.key ~r steps.map Cycle.Step.key) ∧
    (build m).cycles.Pairwise fun c d =>
      ¬ c.steps.map Cycle.Step.key ~r d.steps.map Cycle.Step.key := by
  have hs := sound_build m
  refine ⟨?_, ?_, ?_⟩
  · intro c hc
    obtain ⟨loop, hloop, rfl⟩ := List.mem_map.mp hc
    exact hs.isCycle_of_isLoop (isLoop_of_mem_loops hloop)
  · intro steps hsteps
    obtain ⟨loop, hloop, rfl⟩ := hs.exists_isLoop_of_isCycle hsteps
    obtain ⟨found, hfound, hr⟩ := hs.exists_mem_loops hloop
    refine ⟨(build m).cycleOf found, List.mem_map_of_mem hfound, ?_⟩
    have hkeys := hr.map fun entry => (((build m).nameAt entry.1).rendered, entry.2)
    rwa [← map_key_stepOf, ← map_key_stepOf] at hkeys
  · refine List.pairwise_map.mpr ((pairwise_loops _).imp_of_mem fun {a b} ha hb hne hr => hne ?_)
    exact hs.isRotated_keyOf (isLoop_of_mem_loops ha) (isLoop_of_mem_loops hb) hr

end Graph

end Injection
