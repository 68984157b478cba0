import Injection.Journal
import Injection.Proofs.Layout
import Injection.Proofs.Shape

/-!
# Dependencies without an edge

A graph is built from the dependencies in their order. A dependency gets its edge if there is a node
for its target by then: the target is declared, or bears the name of a member that a dependency
before it has navigated. Any other dependency is skipped, and a warning tells so. Validation knows
of declared names only, so that it refuses every module with a skipped dependency, but not only
these.

## Main definitions

* `ModuleDecl.placements` — the dependencies in order, each with whether it gets an edge.
* `Dependency.Navigates` — whether a name is that of a member on the way of a dependency.
* `Journal.warnings` — the dependencies that are said to be skipped.
-/

namespace Injection

open Relation

/-! ## Names that are known -/

namespace Wiring

variable {known : List String} {uses front back : List (String × Dependency)}
  {use : String × Dependency}

/-- The dependencies whose targets are not known when they come up. -/
def skipped (known : List String) (uses : List (String × Dependency)) :
    List (String × Dependency) :=
  ((placements known uses).filter (!·.2)).map (·.1)

theorem map_fst_placements (known : List String) (uses : List (String × Dependency)) :
    (placements known uses).map (·.1) = uses := by
  fun_induction placements known uses <;> grind

theorem placements_cons (w : Wiring) (use : String × Dependency)
    (uses : List (String × Dependency)) :
    placements w.names (use :: uses) =
      (use, decide (use.2.target.rendered ∈ w.names)) ::
        placements (w.addDependency use.1 use.2).names uses := by
  by_cases h : use.2.target.rendered ∈ w.names
  · rw [placements, if_pos h, placements_congr (addDependency_of_mem h).2, decide_eq_true h]
  · rw [placements, if_neg h, addDependency, if_neg h, decide_eq_false h]

/-- Whether later dependencies are placed depends on what is known behind the earlier ones. -/
theorem placements_append (w : Wiring) (front back : List (String × Dependency)) :
    placements w.names (front ++ back) = placements w.names front ++
      placements (front.foldl (fun w use => w.addDependency use.1 use.2) w).names back := by
  induction front generalizing w with
  | nil => rfl
  | cons use front ih =>
    rw [List.cons_append, placements_cons, placements_cons, ih]
    rfl

theorem skipped_append (w : Wiring) (front back : List (String × Dependency)) :
    skipped w.names (front ++ back) = skipped w.names front ++
      skipped (front.foldl (fun w use => w.addDependency use.1 use.2) w).names back := by
  rw [skipped, placements_append, List.filter_append, List.map_append]
  rfl

/-- A dependency is placed if its target was known before, or is the name of a member on the way of
a dependency that has been placed. -/
theorem placed_iff {before after : List ((String × Dependency) × Bool)} {met : Bool}
    (h : placements known uses = before ++ (use, met) :: after) :
    met = true ↔ use.2.target.rendered ∈ known ∨
      ∃ other, (other, true) ∈ before ∧
        use.2.target.rendered ∈ other.2.members.map Member.name := by
  induction uses generalizing known before with
  | nil => simp [placements] at h
  | cons first rest ih =>
    by_cases hfirst : first.2.target.rendered ∈ known
    · rw [placements, if_pos hfirst] at h
      cases before with
      | nil =>
        obtain ⟨hplaced, -⟩ := List.cons.inj h
        grind
      | cons _ before =>
        obtain ⟨rfl, hrest⟩ := List.cons.inj h
        rw [ih hrest, List.mem_append]
        grind
    · rw [placements, if_neg hfirst] at h
      cases before with
      | nil =>
        obtain ⟨hskipped, -⟩ := List.cons.inj h
        grind
      | cons _ before =>
        obtain ⟨rfl, hrest⟩ := List.cons.inj h
        rw [ih hrest]
        grind

end Wiring

/-! ## Placements of a module -/

/-- Whether a name is that of a member on the way of a dependency, the last one included. -/
def Dependency.Navigates (dependency : Dependency) (written : String) : Prop :=
  ∃ path, path ≠ [] ∧ path <+: dependency.path ∧
    (dependency.target.member path).rendered = written

theorem Dependency.navigates_iff {dependency : Dependency} {written : String} :
    dependency.Navigates written ↔ written ∈ dependency.members.map Member.name := by
  simp only [Navigates, List.mem_map, mem_members_iff]
  constructor
  · intro ⟨path, hne, hpath, hname⟩
    obtain ⟨walked, segment, rfl⟩ := (List.eq_nil_or_concat' path).resolve_left hne
    exact ⟨⟨dependency.target, walked, segment⟩, ⟨rfl, hpath⟩, hname⟩
  · intro ⟨x, ⟨howner, hpath⟩, hname⟩
    exact ⟨x.walked ++ [x.segment], by simp, hpath, howner ▸ hname⟩

instance (dependency : Dependency) (written : String) : Decidable (dependency.Navigates written) :=
  decidable_of_iff _ dependency.navigates_iff.symm

namespace ModuleDecl

variable {m : ModuleDecl}

/-- The dependencies in order, each with whether it gets an edge. -/
def placements (m : ModuleDecl) : List ((String × Dependency) × Bool) :=
  Wiring.placements m.declared m.uses

theorem placements_eq (m : ModuleDecl) :
    m.placements = Wiring.placements (Wiring.ofDeclarations m).names m.uses :=
  Wiring.placements_congr (fun name => ((Wiring.ofDeclarations_spec m).1 name).symm) m.uses

theorem placed_iff {before after : List ((String × Dependency) × Bool)}
    {use : String × Dependency} {met : Bool} (h : m.placements = before ++ (use, met) :: after) :
    met = true ↔ m.declares use.2.target = true ∨
      ∃ other, (other, true) ∈ before ∧ other.2.Navigates use.2.target.rendered := by
  simp only [declares_iff_mem, Dependency.navigates_iff]
  exact Wiring.placed_iff h

theorem Closed.placed_of_mem (hm : m.Closed) {use : String × Dependency} {met : Bool}
    (h : (use, met) ∈ m.placements) : met = true := by
  obtain ⟨before, after, hsplit⟩ := List.append_of_mem h
  refine (placed_iff hsplit).mpr (.inl (declares_iff_mem.mpr (hm use ?_)))
  rw [← Wiring.map_fst_placements m.declared m.uses]
  exact List.mem_map_of_mem h

end ModuleDecl

theorem Graph.direct_build (m : ModuleDecl) :
    ((build m).edges.filter (!·.nested)).map (build m).linkOf =
      (m.placements.filter (·.2)).map fun placement =>
        Wiring.linkTo placement.1.1 placement.1.2 := by
  have hlinks : (build m).edges.map (build m).linkOf =
      Wiring.linksOf (Wiring.ofDeclarations m).names
        (Wiring.placed (Wiring.ofDeclarations m).names m.uses) := by
    have hbuild := congrArg Wiring.links (wiring_build m)
    rw [Wiring.build, Wiring.foldl_addBean, Wiring.foldl_addDependency,
      (Wiring.ofDeclarations_spec m).2, List.nil_append] at hbuild
    rw [← links_eq]
    exact hbuild
  rw [map_linkOf_filter_direct, hlinks, Wiring.filter_direct_linksOf, Wiring.placed,
    ← m.placements_eq, List.map_map]
  rfl

/-! ## Warnings -/

/-- The dependency that an event says to be skipped, as its bean and its target. -/
def Event.skipped? : Event → Option (String × QualifiedName)
  | skippedDependency bean target => some (bean.rendered, target)
  | _ => none

namespace Journal

open Injection.Graph

variable {g : Graph} {events : List Event} {start middle finish : Growing}

/-- The dependencies that are said to be skipped. -/
def warnings (events : List Event) : List (String × QualifiedName) :=
  events.filterMap Event.skipped?

theorem warnings_append (events later : List Event) :
    warnings (events ++ later) = warnings events ++ warnings later :=
  List.filterMap_append

/-- Whether a graph grows by some dependencies while warnings are given for those that are
skipped. -/
structure Tells (start finish : Growing) (uses : List (String × Dependency)) : Prop where
  grows : ReflTransGen Grows start.1 finish.1
  wiring : finish.1.wiring = uses.foldl (fun w use => w.addDependency use.1 use.2) start.1.wiring
  warned : warnings finish.2 = warnings start.2 ++
    (Wiring.skipped start.1.wiring.names uses).map fun use => (use.1, use.2.target)

theorem Tells.refl (growing : Growing) : Tells growing growing [] :=
  ⟨.refl, rfl, (List.append_nil _).symm⟩

theorem Tells.trans {front back : List (String × Dependency)} (h : Tells start middle front)
    (h' : Tells middle finish back) : Tells start finish (front ++ back) where
  grows := h.grows.trans h'.grows
  wiring := by rw [List.foldl_append, ← h.wiring, h'.wiring]
  warned := by
    rw [h'.warned, h.warned, Wiring.skipped_append, h.wiring, List.map_append, List.append_assoc]

theorem tells_addDependency {source : Nat} {bean : QualifiedName} {b : Bean}
    {dependency : Dependency} (hs : g.Sound) (hsource : g.indexOf? bean = some source)
    (hbean : g.nodes[source]? = some (.bean b)) :
    Tells (g, events) (addDependency bean source (g, events) dependency)
      [(bean.rendered, dependency)] := by
  have hwiring : (g.addDependency source dependency).wiring =
      g.wiring.addDependency bean.rendered dependency := wiring_addDependency hs hsource
  have hgrows : ReflTransGen Grows g (g.addDependency source dependency) :=
    grows_addDependency hs hbean
  have hknown : g.indexOf? dependency.target = none ↔
      dependency.target.rendered ∉ g.wiring.names := indexOf?_eq_none_iff
  cases hfound : g.indexOf? dependency.target with
  | none =>
    have hsame : g.addDependency source dependency = g := by
      rw [Graph.addDependency, hfound]
    have hskipped := hknown.mp hfound
    rw [hsame] at hwiring
    refine ⟨?_, ?_, ?_⟩
    · simp [addDependency, hfound, ReflTransGen.refl]
    · simpa [addDependency, hfound] using hwiring
    · simp [addDependency, hfound, warnings, Event.skipped?, Wiring.skipped, Wiring.placements,
        hskipped]
  | some owner =>
    have hplaced : dependency.target.rendered ∈ g.wiring.names :=
      mem_written_of_indexOf? hfound
    refine ⟨?_, ?_, ?_⟩
    · simpa [addDependency, hfound] using hgrows
    · simpa [addDependency, hfound] using hwiring
    · simp [addDependency, hfound, Wiring.skipped, Wiring.placements, hplaced]

/-- What is told of each item of a list, is told of the list. -/
theorem tells_foldl {α : Type} {items : List α} {f : Growing → α → Growing}
    {usesOf : α → List (String × Dependency)} {P : Graph → Prop}
    (hkept : ∀ g g', ReflTransGen Grows g g' → P g → P g')
    (hitem : ∀ growing : Growing, growing.1.Sound → P growing.1 → ∀ a ∈ items,
      Tells growing (f growing a) (usesOf a))
    (hs : start.1.Sound) (hstart : P start.1) :
    Tells start (items.foldl f start) (items.flatMap usesOf) := by
  induction items generalizing start with
  | nil => exact .refl start
  | cons a rest ih =>
    have hfirst := hitem start hs hstart a List.mem_cons_self
    refine hfirst.trans (ih ?_ (sound_of_grows hfirst.grows hs) (hkept _ _ hfirst.grows hstart))
    exact fun growing hs' hg b hb => hitem growing hs' hg b (List.mem_cons_of_mem a hb)

theorem tells_addBean {bean : Bean} (hs : start.1.Sound) (hb : start.1.HasBean bean.name) :
    Tells start (addBean start bean) (bean.dependencies.map (bean.name.rendered, ·)) := by
  obtain ⟨source, b, hi, hn⟩ := hb
  rw [addBean, hi, ← List.flatMap_pure_eq_map]
  exact tells_foldl
    (P := fun g => g.indexOf? bean.name = some source ∧ g.nodes[source]? = some (.bean b))
    (fun _ _ h hp => ⟨indexOf?_of_grows h hp.1, getElem?_nodes_of_grows h hp.2⟩)
    (fun _ hs hp _ _ => tells_addDependency hs hp.1 hp.2) hs ⟨hi, hn⟩

/-- Warnings are given for the dependencies that get no edge. -/
theorem warnings_ofBuild (m : ModuleDecl) :
    warnings (ofBuild m) = (m.placements.filter (!·.2)).map fun placement =>
      (placement.1.1, placement.1.2.target) := by
  have hsound := sound_of_grows (grows_ofDeclarations m) (sound_empty m.name)
  have htells : Tells (ofDeclarations m, []) (m.beans.foldl addBean (ofDeclarations m, []))
      m.uses :=
    tells_foldl (P := fun g => ∀ bean ∈ m.beans, g.HasBean bean.name)
      (fun _ _ h hb bean hm => (hb bean hm).of_grows h)
      (fun _ hs hb bean hm => tells_addBean hs (hb bean hm))
      hsound fun _ hb => hasBean_ofDeclarations hb
  have hrepeated : warnings ((repeatedNames [] m.declaredNames).map .repeatedDeclaration) = [] := by
    simp [warnings, Event.skipped?]
  rw [ofBuild, warnings_append, hrepeated, List.nil_append, htells.warned, wiring_ofDeclarations,
    Wiring.skipped, ← m.placements_eq, List.map_map]
  rfl

end Journal

namespace Graph

/-- The graph of a module, sound or not, has an edge for a dependency exactly if the target is
declared, or is a member on the way of a dependency before it that has an edge; and a warning is
given for each other dependency. None of these is on a declared name, and a module that passes
validation has none. So what is warned about are the dependencies on names that are not declared,
unless one of these names is that of a member. -/
theorem build_skips (m : ModuleDecl) :
    let g := build m
    m.placements.map (·.1) = m.uses ∧
    (∀ before use met after, m.placements = before ++ (use, met) :: after →
      (met = true ↔ m.declares use.2.target = true ∨
        ∃ other, (other, true) ∈ before ∧ other.2.Navigates use.2.target.rendered)) ∧
    (g.edges.filter (!·.nested)).map g.linkOf =
      (m.placements.filter (·.2)).map (fun placement =>
        Wiring.linkTo placement.1.1 placement.1.2) ∧
    Journal.warnings (Journal.ofBuild m) =
      (m.placements.filter (!·.2)).map (fun placement =>
        (placement.1.1, placement.1.2.target)) ∧
    (m.validate = .ok () → Journal.warnings (Journal.ofBuild m) = []) ∧
    ((∀ use ∈ m.uses, m.declares use.2.target = false →
        ∀ other ∈ m.uses, ¬ other.2.Navigates use.2.target.rendered) →
      ∀ use met, (use, met) ∈ m.placements → met = m.declares use.2.target) := by
  intro g
  have huses : m.placements.map (·.1) = m.uses := Wiring.map_fst_placements _ _
  refine ⟨huses, fun before use met after => ModuleDecl.placed_iff, direct_build m,
    Journal.warnings_ofBuild m, fun hvalid => ?_, fun hapart use met hmem => ?_⟩
  · obtain ⟨-, -, hclosed⟩ := ModuleDecl.validate_eq_ok_iff.mp hvalid
    have hnone : m.placements.filter (!·.2) = [] := by
      refine List.filter_eq_nil_iff.mpr fun placement hmem => ?_
      simp [hclosed.placed_of_mem hmem]
    rw [Journal.warnings_ofBuild, hnone, List.map_nil]
  · obtain ⟨before, after, hsplit⟩ := List.append_of_mem hmem
    have hiff := ModuleDecl.placed_iff hsplit
    have huse : use ∈ m.uses := huses ▸ List.mem_map_of_mem hmem
    have hbefore : ∀ other, (other, true) ∈ before → other ∈ m.uses := by
      intro other hother
      rw [← huses, hsplit]
      exact List.mem_map.mpr ⟨_, List.mem_append_left _ hother, rfl⟩
    grind

end Graph

/-- A module that is not valid: two beans depend on a member by its name, one before the member is
navigated and one after that, and there is no bean for the last target. -/
def memberNaming : ModuleDecl where
  name := "m"
  beans := [
    { name := ⟨"m", "a"⟩, dependencies := [⟨⟨"m", "t.x"⟩, "p", .direct⟩] },
    { name := ⟨"m", "b"⟩, dependencies := [⟨⟨"m", "t"⟩, "q", .nested ["x", "y"]⟩] },
    { name := ⟨"m", "c"⟩
      dependencies := [⟨⟨"m", "t.x"⟩, "r", .direct⟩, ⟨⟨"m", "u"⟩, "u", .direct⟩] },
    { name := ⟨"m", "t"⟩ }]

/-- The member has a node for the third bean, though not for the first. In the module `unsorted` no
member bears the name that is not declared. -/
theorem build_skips_memberNaming :
    let g := Graph.build memberNaming
    (g.edges.filter (!·.nested)).map g.linkOf =
      [⟨"m:b", "m:t.x.y", "q", false⟩, ⟨"m:c", "m:t.x", "r", false⟩] ∧
    Journal.warnings (Journal.ofBuild memberNaming) =
      [("m:a", ⟨"m", "t.x"⟩), ("m:c", ⟨"m", "u"⟩)] ∧
    (∃ other, (other, true) ∈ memberNaming.placements.take 2 ∧ other.2.Navigates "m:t.x") ∧
    (branching.validate = .ok () ∧ Journal.warnings (Journal.ofBuild branching) = []) ∧
    ((("m:b", ⟨⟨"m", "u"⟩, "u", .direct⟩), false) ∈ unsorted.placements ∧
      unsorted.declares ⟨"m", "u"⟩ = false) := by
  intro g
  obtain ⟨-, hplaced, hdirect, hwarned, -⟩ := Graph.build_skips memberNaming
  obtain ⟨-, -, -, -, hvalid, -⟩ := Graph.build_skips branching
  obtain ⟨-, -, -, -, -, hapart⟩ := Graph.build_skips unsorted
  have hskipped : (("m:b", ⟨⟨"m", "u"⟩, "u", .direct⟩), false) ∈ unsorted.placements :=
    List.mem_of_getElem? (i := 1) rfl
  refine ⟨hdirect.trans rfl, hwarned.trans rfl, ?_, ⟨rfl, hvalid rfl⟩, hskipped, ?_⟩
  · have hfound := (hplaced (memberNaming.placements.take 2) _ true _ rfl).mp rfl
    exact hfound.resolve_left (by decide)
  · exact (hapart (by decide) _ _ hskipped).symm

/-- A dependency on a name that is not declared can get an edge. -/
theorem not_skips_undeclared :
    ¬ ∀ m : ModuleDecl,
      ((Graph.build m).edges.filter (!·.nested)).map (Graph.build m).linkOf =
        (m.uses.filter fun use => m.declares use.2.target).map fun use =>
          Wiring.linkTo use.1 use.2 := by
  intro hall
  exact absurd (hall memberNaming) (by decide)

end Injection
