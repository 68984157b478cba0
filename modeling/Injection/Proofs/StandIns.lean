import Injection.Boundary
import Injection.Proofs.Fit
import Injection.Proofs.Selection
import Injection.Proofs.Validation
import Mathlib

/-!
# Placeholders and stand-ins

There are two forms of a root that uses beans of components. In the prepared root these beans are
sockets, and in the view across the boundary they are beans, which depend on what is plugged into
the components. The names are chosen separately, but they are the same in both forms. So the graphs
are built alike from the dependencies of the root: they know the same names all the time, though in
another order and with other nodes. The view has the dependencies of its stand-ins left then, and
these add links only.

## Main definitions

* `Plugged.standIn` — the bean that stands for a bean of a component.
* `usedBeans` — the beans of components that a root uses, with their components.
* `Wiring.Alike` — whether two wirings have the same names, and the same links in the same order.
-/

namespace Injection

variable {root : ModuleDecl} {components : List Plugged} {plugged : Plugged} {name : QualifiedName}
  {bean : Bean} {supported : UInt32}

/-! ## Providers behind a bean -/

/-- What is plugged into the sockets that a bean reaches. -/
theorem mem_providersBehind_iff {imported : Import} {component : ModuleDecl}
    {name provider : QualifiedName} {key : String} :
    (key, provider) ∈ providersBehind imported component name ↔
      ∃ socket ∈ component.sockets, socket.name.rendered ∈ component.reachedFrom name ∧
        socket.name.localPart = key ∧ imported.bindings.get? key = some provider := by
  simp only [providersBehind, List.mem_filterMap, List.mem_filter, decide_eq_true_eq,
    Option.map_eq_some_iff, Prod.mk.injEq]
  constructor
  · rintro ⟨socket, ⟨hsocket, hreached⟩, provider, hget, rfl, rfl⟩
    exact ⟨socket, hsocket, hreached, rfl, hget⟩
  · rintro ⟨socket, hsocket, hreached, rfl, hget⟩
    exact ⟨socket, ⟨hsocket, hreached⟩, provider, hget, rfl, rfl⟩

/-! ## Components of beans -/

/-- The bean that stands for a bean of a component. -/
def Plugged.standIn (plugged : Plugged) (name : QualifiedName) : Bean where
  name := name
  dependencies := (providersBehind plugged.imported plugged.component name).map
    fun (socket, provider) => { target := provider, label := socket }

/-- A component is found by the module name of a bean if no other one has its name. -/
theorem componentOf?_eq_some_iff (hnodup : (components.map (·.component.name)).Nodup) :
    componentOf? components name = some plugged ↔
      plugged ∈ components ∧ plugged.component.name = name.modulePart := by
  rw [componentOf?, find?_eq_some_iff_of_unique, beq_iff_eq]
  intro a ha b hb hname hname'
  exact List.inj_on_of_nodup_map hnodup ha hb
    ((beq_iff_eq.mp hname).trans (beq_iff_eq.mp hname').symm)

theorem standIn?_eq_some_iff (hnodup : (components.map (·.component.name)).Nodup) :
    standIn? components name = some bean ↔
      ∃ plugged ∈ components, plugged.component.name = name.modulePart ∧
        (plugged.component.bean? name).isSome ∧ plugged.standIn name = bean := by
  have hunfold : standIn? components name = some bean ↔
      ∃ plugged, componentOf? components name = some plugged ∧
        (plugged.component.bean? name).isSome ∧ plugged.standIn name = bean := by
    unfold standIn?
    cases componentOf? components name with
    | none => simp
    | some plugged =>
      cases hbean : plugged.component.bean? name <;> simp [hbean, Plugged.standIn]
  simp only [hunfold, componentOf?_eq_some_iff hnodup, and_assoc]

theorem isProvidedBy_iff_exists :
    isProvidedBy (components.map (·.component)) name = true ↔
      ∃ plugged ∈ components, plugged.component.name = name.modulePart ∧
        (plugged.component.bean? name).isSome := by
  simp [isProvidedBy]

/-- A bean of a component is stood for in the view if it is a placeholder in the prepared root. -/
theorem isSome_standIn? (hnodup : (components.map (·.component.name)).Nodup) :
    (standIn? components name).isSome = isProvidedBy (components.map (·.component)) name := by
  rw [Bool.eq_iff_iff, isProvidedBy_iff_exists, Option.isSome_iff_exists]
  simp only [standIn?_eq_some_iff hnodup]
  constructor
  · rintro ⟨_, plugged, hmem, hname, hbean, -⟩
    exact ⟨plugged, hmem, hname, hbean⟩
  · rintro ⟨plugged, hmem, hname, hbean⟩
    exact ⟨_, plugged, hmem, hname, hbean, rfl⟩

/-! ## Used beans -/

theorem standIns_eq (hnodup : (components.map (·.component.name)).Nodup) :
    standIns root components =
      (placeholderNames root (components.map (·.component))).filterMap (standIn? components) := by
  have hprovided : (fun name => (standIn? components name).isSome) =
      isProvidedBy (components.map (·.component)) := funext fun _ => isSome_standIn? hnodup
  rw [standIns, hprovided]
  rfl

/-- The beans of components that a root uses, each with its component. -/
def usedBeans (root : ModuleDecl) (components : List Plugged) : List (QualifiedName × Plugged) :=
  (placeholderNames root (components.map (·.component))).filterMap fun name =>
    (componentOf? components name).map (name, ·)

theorem spec_of_mem_placeholderNames {components : List ModuleDecl}
    (h : name ∈ placeholderNames root components) :
    root.leavesOpen name = true ∧ isProvidedBy components name = true := by
  have hmem := (distinctBy_sublist _ _).mem h
  simpa using (List.mem_filter.mp hmem).2

/-- Each name that is used has its component, and stands for a bean of it. -/
theorem exists_componentOf? (hnodup : (components.map (·.component.name)).Nodup)
    (h : name ∈ placeholderNames root (components.map (·.component))) :
    ∃ plugged, componentOf? components name = some plugged ∧
      (plugged.component.bean? name).isSome ∧
        standIn? components name = some (plugged.standIn name) := by
  obtain ⟨plugged, hmem, hmodule, hbean⟩ :=
    isProvidedBy_iff_exists.mp (spec_of_mem_placeholderNames h).2
  exact ⟨plugged, (componentOf?_eq_some_iff hnodup).mpr ⟨hmem, hmodule⟩, hbean,
    (standIn?_eq_some_iff hnodup).mpr ⟨plugged, hmem, hmodule, hbean, rfl⟩⟩

theorem map_fst_usedBeans (hnodup : (components.map (·.component.name)).Nodup) :
    (usedBeans root components).map (·.1) =
      placeholderNames root (components.map (·.component)) := by
  have hfound : ∀ name ∈ placeholderNames root (components.map (·.component)),
      ((componentOf? components name).map (name, ·)).map (·.1) = some name := by
    intro name hname
    obtain ⟨plugged, hcomponent, -⟩ := exists_componentOf? hnodup hname
    simp [hcomponent]
  rw [usedBeans, List.map_filterMap, List.filterMap_congr hfound, List.filterMap_some]

theorem spec_of_mem_usedBeans (hnodup : (components.map (·.component.name)).Nodup)
    (h : (name, plugged) ∈ usedBeans root components) :
    plugged ∈ components ∧ plugged.component.name = name.modulePart ∧
      (plugged.component.bean? name).isSome := by
  obtain ⟨name', hname, hcomponent⟩ := List.mem_filterMap.mp h
  obtain ⟨plugged', hfound, hbean, -⟩ := exists_componentOf? hnodup hname
  rw [hfound, Option.map_some, Option.some.injEq] at hcomponent
  obtain ⟨rfl, rfl⟩ := Prod.mk.inj hcomponent
  obtain ⟨hmem, hmodule⟩ := (componentOf?_eq_some_iff hnodup).mp hfound
  exact ⟨hmem, hmodule, hbean⟩

theorem standIns_eq_map (hnodup : (components.map (·.component.name)).Nodup) :
    standIns root components =
      (usedBeans root components).map fun (name, plugged) => plugged.standIn name := by
  rw [standIns_eq hnodup, usedBeans, List.map_filterMap]
  refine List.filterMap_congr fun name hname => ?_
  obtain ⟨plugged, hcomponent, -, hstandIn⟩ := exists_componentOf? hnodup hname
  simp [hcomponent, hstandIn]

/-! ## Declared names -/

theorem map_name_standIns (hnodup : (components.map (·.component.name)).Nodup) :
    (standIns root components).map (·.name) =
      placeholderNames root (components.map (·.component)) := by
  rw [standIns_eq_map hnodup, ← map_fst_usedBeans hnodup, List.map_map]
  rfl

theorem declaredNames_withPlaceholders (components : List ModuleDecl) :
    (withPlaceholders root components).declaredNames =
      root.declaredNames ++ placeholderNames root components := by
  simp [withPlaceholders, ModuleDecl.declaredNames, Function.comp_def]

theorem declared_withPlaceholders (components : List ModuleDecl) :
    (withPlaceholders root components).declared =
      root.declared ++ (placeholderNames root components).map QualifiedName.rendered := by
  rw [ModuleDecl.declared, declaredNames_withPlaceholders, List.map_append]
  rfl

theorem declaredNames_withStandIns (hnodup : (components.map (·.component.name)).Nodup) :
    (withStandIns root components).declaredNames =
      root.beans.map (·.name) ++ placeholderNames root (components.map (·.component)) ++
        root.sockets.map (·.name) := by
  rw [← map_name_standIns hnodup]
  simp [withStandIns, ModuleDecl.declaredNames]

/-- Both forms declare the same names: where the one has the placeholders behind the sockets, the
other has the stand-ins before them. -/
theorem perm_declared_withStandIns (hnodup : (components.map (·.component.name)).Nodup) :
    (withStandIns root components).declared.Perm
      (withPlaceholders root (components.map (·.component))).declared := by
  refine List.Perm.map _ ?_
  rw [declaredNames_withStandIns hnodup, declaredNames_withPlaceholders, ModuleDecl.declaredNames,
    List.append_assoc, List.append_assoc]
  exact List.perm_append_comm.append_left _

theorem mem_declared_withStandIns_iff (hnodup : (components.map (·.component.name)).Nodup)
    {written : String} :
    written ∈ (withStandIns root components).declared ↔
      written ∈ (withPlaceholders root (components.map (·.component))).declared :=
  (perm_declared_withStandIns hnodup).mem_iff

/-! ## Dependencies of stand-ins -/

/-- The dependencies of the stand-ins, each with the written name of its bean. -/
def standInUses (root : ModuleDecl) (components : List Plugged) : List (String × Dependency) :=
  (standIns root components).flatMap fun bean => bean.dependencies.map (bean.name.rendered, ·)

theorem uses_withStandIns :
    (withStandIns root components).uses = root.uses ++ standInUses root components := by
  simp [withStandIns, ModuleDecl.uses, standInUses]

/-- A stand-in depends on what is plugged into the component, and labels it by the socket. -/
theorem standInUses_eq (hnodup : (components.map (·.component.name)).Nodup) :
    standInUses root components = (usedBeans root components).flatMap fun (name, plugged) =>
      (providersBehind plugged.imported plugged.component name).map fun (key, provider) =>
        (name.rendered, { target := provider, label := key }) := by
  rw [standInUses, standIns_eq_map hnodup, List.flatMap_map]
  simp [Plugged.standIn, Function.comp_def]

theorem exists_of_mem_standInUses (hnodup : (components.map (·.component.name)).Nodup)
    {use : String × Dependency} (h : use ∈ standInUses root components) :
    ∃ plugged ∈ components, ∃ key provider, plugged.imported.bindings.get? key = some provider ∧
      use.2 = { target := provider, label := key } := by
  rw [standInUses_eq hnodup] at h
  obtain ⟨⟨name, plugged⟩, hused, hbehind⟩ := List.mem_flatMap.mp h
  obtain ⟨⟨key, provider⟩, hpair, rfl⟩ := List.mem_map.mp hbehind
  obtain ⟨-, -, -, -, hget⟩ := mem_providersBehind_iff.mp hpair
  exact ⟨plugged, (spec_of_mem_usedBeans hnodup hused).1, key, provider, hget, rfl⟩

/-- The dependencies of stand-ins navigate nothing. -/
theorem members_of_mem_standInUses (hnodup : (components.map (·.component.name)).Nodup)
    {use : String × Dependency} (h : use ∈ standInUses root components) : use.2.members = [] := by
  obtain ⟨_, _, _, _, _, he⟩ := exists_of_mem_standInUses hnodup h
  rw [he]
  rfl

/-- The dependencies of stand-ins are on names that the root declares, if the components fit. -/
theorem target_of_mem_standInUses (hnodup : (components.map (·.component.name)).Nodup)
    (hfits : ∀ plugged ∈ components, Fits root plugged.imported plugged.component supported)
    {use : String × Dependency} (h : use ∈ standInUses root components) :
    use.2.target.rendered ∈ root.declared := by
  obtain ⟨plugged, hmem, key, provider, hget, he⟩ := exists_of_mem_standInUses hnodup h
  rw [he]
  exact ModuleDecl.declares_iff_mem.mp ((hfits plugged hmem).supplied key provider hget)

/-! ## Building alike -/

namespace Wiring

variable {w w' : Wiring} {uses : List (String × Dependency)}

/-- Whether two wirings have the same names, in whatever order, and the same links in order. -/
structure Alike (w w' : Wiring) : Prop where
  names : ∀ name, name ∈ w.names ↔ name ∈ w'.names
  links : w.links = w'.links

/-- A dependency adds the same names and the same links to both wirings. -/
theorem Alike.addDependency (h : Alike w w') (use : String × Dependency) :
    Alike (w.addDependency use.1 use.2) (w'.addDependency use.1 use.2) := by
  by_cases hmem : use.2.target.rendered ∈ w.names
  · have hmem' : use.2.target.rendered ∈ w'.names := (h.names _).mp hmem
    obtain ⟨hstep, hnames⟩ := addDependency_of_mem hmem
    obtain ⟨hstep', hnames'⟩ := addDependency_of_mem hmem'
    refine ⟨fun name => ?_, ?_⟩
    · rw [hnames, hnames', List.mem_append, List.mem_append, h.names]
    · rw [hstep, hstep', h.links, keepFirst_congr Member.name h.names]
  · have hmem' : use.2.target.rendered ∉ w'.names := mt (h.names _).mpr hmem
    rw [Wiring.addDependency, Wiring.addDependency, if_neg hmem, if_neg hmem']
    exact h

theorem Alike.foldl_addDependency (h : Alike w w') (uses : List (String × Dependency)) :
    Alike (uses.foldl (fun w use => w.addDependency use.1 use.2) w)
      (uses.foldl (fun w use => w.addDependency use.1 use.2) w') := by
  induction uses generalizing w w' with
  | nil => exact h
  | cons use uses ih => exact ih (h.addDependency use)

/-- Dependencies that navigate nothing add links only, one each if their targets are known. -/
theorem foldl_addDependency_direct (w : Wiring)
    (hknown : ∀ use ∈ uses, use.2.target.rendered ∈ w.names)
    (hdirect : ∀ use ∈ uses, use.2.members = []) :
    uses.foldl (fun w use => w.addDependency use.1 use.2) w =
      ⟨w.names, w.links ++ uses.map fun use => linkTo use.1 use.2⟩ := by
  induction uses generalizing w with
  | nil => simp
  | cons use uses ih =>
    obtain ⟨hfirst, hrest⟩ := List.forall_mem_cons.mp hknown
    obtain ⟨hnone, hnones⟩ := List.forall_mem_cons.mp hdirect
    have hstep : w.addDependency use.1 use.2 = ⟨w.names, w.links ++ [linkTo use.1 use.2]⟩ := by
      simp [(addDependency_of_mem hfirst).1, hnone, keepFirst]
    rw [List.foldl_cons, hstep, ih ⟨w.names, w.links ++ [linkTo use.1 use.2]⟩ hrest hnones]
    simp

theorem mem_names_foldl_addDependency {written : String} (h : written ∈ w.names) :
    written ∈ (uses.foldl (fun w use => w.addDependency use.1 use.2) w).names := by
  rw [foldl_addDependency]
  exact List.mem_append_left _ h

/-- The view is built like the prepared root, and then from the dependencies of its stand-ins. -/
theorem alike_build_withStandIns (hnodup : (components.map (·.component.name)).Nodup)
    (hfits : ∀ plugged ∈ components, Fits root plugged.imported plugged.component supported) :
    let prepared := build (withPlaceholders root (components.map (·.component)))
    Alike (build (withStandIns root components))
      ⟨prepared.names,
        prepared.links ++ (standInUses root components).map fun use => linkTo use.1 use.2⟩ := by
  intro prepared
  let start := ofDeclarations (withStandIns root components)
  let before := root.uses.foldl (fun w use => w.addDependency use.1 use.2) start
  obtain ⟨hnames, hlinks⟩ := ofDeclarations_spec (withStandIns root components)
  have hbefore : Alike before prepared := by
    obtain ⟨hnames', hlinks'⟩ :=
      ofDeclarations_spec (withPlaceholders root (components.map (·.component)))
    have hstart : Alike start
        (ofDeclarations (withPlaceholders root (components.map (·.component)))) := by
      refine ⟨fun name => ?_, hlinks.trans hlinks'.symm⟩
      rw [hnames, hnames', mem_declared_withStandIns_iff hnodup]
    rw [show prepared = _ from foldl_addBean _ _]
    exact hstart.foldl_addDependency root.uses
  have hknown : ∀ use ∈ standInUses root components, use.2.target.rendered ∈ before.names := by
    intro use huse
    refine mem_names_foldl_addDependency ((hnames _).mpr ?_)
    rw [mem_declared_withStandIns_iff hnodup, declared_withPlaceholders]
    exact List.mem_append_left _ (target_of_mem_standInUses hnodup hfits huse)
  have hview : build (withStandIns root components) = ⟨before.names, before.links ++
      (standInUses root components).map fun use => linkTo use.1 use.2⟩ := by
    rw [build, foldl_addBean, uses_withStandIns, List.foldl_append]
    exact foldl_addDependency_direct before hknown fun use =>
      members_of_mem_standInUses hnodup
  rw [hview, hbefore.links]
  exact ⟨hbefore.names, rfl⟩

end Wiring

namespace Graph

/-- The two forms of a root that uses beans of components which fit. The view has a stand-in for
each placeholder of the prepared root, in the same order; each is for a bean of a component with the
module name. Their graphs have the same names, and the links of the view are those of the prepared
root, followed by one from each stand-in to each provider behind its bean, labelled with the local
name of the socket. -/
theorem build_withStandIns (root : ModuleDecl) (components : List Plugged) (supported : UInt32)
    (hnodup : (components.map (·.component.name)).Nodup)
    (hfits : ∀ plugged ∈ components,
      checkFit root plugged.imported plugged.component supported = .ok ()) :
    let prepared := withPlaceholders root (components.map (·.component))
    let view := withStandIns root components
    let used := usedBeans root components
    (∀ name plugged, (name, plugged) ∈ used → plugged ∈ components ∧
      plugged.component.name = name.modulePart ∧ (plugged.component.bean? name).isSome) ∧
    prepared.sockets = root.sockets ++ used.map (fun (name, _) => ⟨name, false⟩) ∧
    view.beans = root.beans ++ used.map (fun (name, plugged) => plugged.standIn name) ∧
    (build view).written.Perm (build prepared).written ∧
    (build view).links = (build prepared).links ++ used.flatMap fun (name, plugged) =>
      (providersBehind plugged.imported plugged.component name).map fun (key, provider) =>
        ⟨name.rendered, provider.rendered, key, false⟩ := by
  intro prepared view used
  have halike := Wiring.alike_build_withStandIns hnodup fun plugged hmem =>
    checkFit_eq_ok_iff.mp (hfits plugged hmem)
  rw [← wiring_build, ← wiring_build] at halike
  refine ⟨fun name plugged => spec_of_mem_usedBeans hnodup, ?_, ?_, ?_, ?_⟩
  · simp only [prepared, withPlaceholders, ← map_fst_usedBeans hnodup, List.map_map]
    rfl
  · exact congrArg _ (standIns_eq_map hnodup)
  · exact (List.perm_ext_iff_of_nodup (sound_build view).distinct
      (sound_build prepared).distinct).mpr halike.names
  · have hlinks : (build view).links = (build prepared).links ++
        (standInUses root components).map fun use => Wiring.linkTo use.1 use.2 := halike.links
    rw [hlinks, standInUses_eq hnodup, List.map_flatMap]
    simp only [List.map_map]
    rfl

end Graph

/-- A root that navigates a bean of a component, and plugs a bean of its own into it. -/
def household : ModuleDecl where
  name := "app"
  beans := [
    { name := ⟨"app", "r"⟩, dependencies := [⟨⟨"c", "p"⟩, "p", .nested ["x"]⟩] },
    { name := ⟨"app", "q"⟩ }]

def boiler : ModuleDecl where
  name := "c"
  beans := [{ name := ⟨"c", "p"⟩, dependencies := [⟨⟨"c", "s"⟩, "s", .direct⟩] }]
  sockets := [{ name := ⟨"c", "s"⟩ }]

def boilerImport : Import where
  component := "c"
  bindings := .ofList [("s", ⟨"app", "q"⟩)]

/-- In the view the member leads to the stand-in, and this one leads on to what is plugged in. -/
theorem build_withStandIns_household :
    ([(⟨boilerImport, boiler⟩ : Plugged)].map (·.component.name)).Nodup ∧
    checkFit household boilerImport boiler 1 = .ok () ∧
    (Graph.build (withStandIns household [⟨boilerImport, boiler⟩])).links =
      (Graph.build (withPlaceholders household [boiler])).links ++
        [⟨"c:p", "app:q", "s", false⟩] := by
  have hnodup : ([(⟨boilerImport, boiler⟩ : Plugged)].map (·.component.name)).Nodup :=
    List.nodup_singleton "c"
  have hfit : checkFit household boilerImport boiler 1 = .ok () := rfl
  obtain ⟨-, -, -, -, hlinks⟩ := Graph.build_withStandIns household [⟨boilerImport, boiler⟩] 1
    hnodup fun plugged hmem => List.mem_singleton.mp hmem ▸ hfit
  refine ⟨hnodup, hfit, hlinks.trans (congrArg _ ?_)⟩
  cbv

end Injection
