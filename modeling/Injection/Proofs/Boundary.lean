import Injection.Composition
import Injection.Proofs.Reach
import Injection.Proofs.StandIns

/-!
# Beans of components

What the root of a composition knows of the components that are plugged into it: the placeholders
of its prepared form, the beans that stand for them in the view across the boundary, and the
providers behind them.

## Main definitions

* `Wired` — whether a component takes part in a composition.
* `Supplies` — whether a wired component has a bean of a name.
* `ModuleDecl.DependsOn` — one step inside a module.
* `Detour` — what the view has more than the prepared root.
-/

namespace Injection

open Relation

variable {options : Options} {root : ModuleDecl} {available : List ModuleDecl}

/-! ## Wired components -/

/-- An import that counts, with an available component that fits. -/
structure Wired (options : Options) (root : ModuleDecl) (available : List ModuleDecl)
    (plugged : Plugged) : Prop where
  selected : plugged.imported ∈ root.selection
  found : available.find? (·.name == plugged.imported.component) = some plugged.component
  fits : checkFit root plugged.imported plugged.component options.supportedVersion = .ok ()

theorem plug_eq_ok_iff {imported : Import} {plugged : Plugged} :
    plug options root available imported = .ok plugged ↔
      plugged.imported = imported ∧
        available.find? (·.name == imported.component) = some plugged.component ∧
        checkFit root imported plugged.component options.supportedVersion = .ok () := by
  obtain ⟨imported', component'⟩ := plugged
  unfold plug
  cases available.find? (·.name == imported.component) with
  | none => simp
  | some component =>
    simp only [Option.some.injEq]
    cases hfit : checkFit root imported component options.supportedVersion with
    | error fault =>
      refine iff_of_false (by simp [bind, Except.bind]) ?_
      rintro ⟨-, rfl, hok⟩
      rw [hfit] at hok
      cases hok
    | ok _ =>
      simp only [bind, Except.bind, pure, Except.pure, Except.ok.injEq, Plugged.mk.injEq]
      constructor
      · rintro ⟨rfl, rfl⟩
        exact ⟨rfl, rfl, hfit⟩
      · rintro ⟨rfl, rfl, -⟩
        exact ⟨rfl, rfl⟩

theorem toOption_plug_eq_some_iff {imported : Import} {plugged : Plugged} :
    (plug options root available imported).toOption = some plugged ↔
      plug options root available imported = .ok plugged := by
  cases plug options root available imported <;> simp [Except.toOption]

/-- The components that are plugged in are the wired ones. -/
theorem mem_pluggedIn_iff {plugged : Plugged} :
    plugged ∈ pluggedIn options root available ↔ Wired options root available plugged := by
  simp only [pluggedIn, List.mem_filterMap, toOption_plug_eq_some_iff, plug_eq_ok_iff]
  constructor
  · rintro ⟨imported, hselected, rfl, hfound, hfits⟩
    exact ⟨hselected, hfound, hfits⟩
  · rintro ⟨hselected, hfound, hfits⟩
    exact ⟨plugged.imported, hselected, rfl, hfound, hfits⟩

/-- No two of the components that are plugged in have one name. -/
theorem nodup_names_pluggedIn :
    ((pluggedIn options root available).map (·.component.name)).Nodup := by
  have hselection : root.selection.Pairwise (·.component ≠ ·.component) :=
    List.pairwise_map.mp (nodup_map_keepFirst Import.component [] _)
  have hname : ∀ imported plugged,
      (plug options root available imported).toOption = some plugged →
        plugged.component.name = imported.component := by
    intro imported plugged hplug
    obtain ⟨-, hfound, -⟩ := plug_eq_ok_iff.mp (toOption_plug_eq_some_iff.mp hplug)
    simpa using List.find?_some hfound
  rw [List.Nodup, List.pairwise_map, pluggedIn, List.pairwise_filterMap]
  refine hselection.imp fun hne plugged hplugged plugged' hplugged' he => hne ?_
  rw [← hname _ _ hplugged, ← hname _ _ hplugged', he]

namespace Wired

variable {plugged plugged' : Plugged}

theorem name_eq (h : Wired options root available plugged) :
    plugged.component.name = plugged.imported.component := by
  simpa using List.find?_some h.found

/-- A wired component is known by its name. -/
theorem eq_of_name (h : Wired options root available plugged)
    (h' : Wired options root available plugged')
    (hname : plugged.component.name = plugged'.component.name) : plugged = plugged' :=
  List.inj_on_of_nodup_map nodup_names_pluggedIn (mem_pluggedIn_iff.mpr h)
    (mem_pluggedIn_iff.mpr h') hname

/-- What is plugged into a wired component is declared by the root. -/
theorem declares_of_get? (h : Wired options root available plugged) {key : String}
    {provider : QualifiedName} (hget : plugged.imported.bindings.get? key = some provider) :
    root.declares provider = true :=
  (checkFit_eq_ok_iff.mp h.fits).supplied key provider hget

end Wired

/-! ## Dependencies inside a component -/

/-- One step inside a module: from a bean, the first declared of its name, to a target. -/
def ModuleDecl.DependsOn (m : ModuleDecl) (a b : String) : Prop :=
  ∃ bean dependency, m.bean? bean.name = some bean ∧ dependency ∈ bean.dependencies ∧
    bean.name.rendered = a ∧ dependency.target.rendered = b

theorem ModuleDecl.leads_targetsOf (m : ModuleDecl) :
    Reach.Leads m.targetsOf (m.beans.map (·.name.rendered)) = m.DependsOn := by
  funext a b
  refine propext ⟨fun ⟨_, hb⟩ => ?_, fun ⟨bean, dependency, hbean, hd, ha, hb⟩ => ⟨?_, ?_⟩⟩
  · unfold ModuleDecl.targetsOf at hb
    split at hb
    · next bean hfind =>
      have ha : bean.name.rendered = a := by simpa using List.find?_some hfind
      obtain ⟨dependency, hd, htarget⟩ := List.mem_map.mp hb
      subst ha
      exact ⟨bean, dependency, hfind, hd, rfl, htarget⟩
    · cases hb
  · exact List.mem_map.mpr ⟨bean, List.mem_of_find?_eq_some hbean, ha⟩
  · have hfind : m.beans.find? (·.name.rendered == a) = some bean := ha ▸ hbean
    rw [ModuleDecl.targetsOf, hfind]
    exact List.mem_map.mpr ⟨dependency, hd, hb⟩

theorem ModuleDecl.mem_reachedFrom_iff {m : ModuleDecl} {name : QualifiedName} {written : String} :
    written ∈ m.reachedFrom name ↔ ReflTransGen m.DependsOn name.rendered written := by
  rw [ModuleDecl.reachedFrom, Reach.mem_fromAny_iff, m.leads_targetsOf]
  simp

/-! ## Placeholders -/

def placeholders (options : Options) (root : ModuleDecl) (available : List ModuleDecl) :
    List QualifiedName :=
  placeholderNames root ((pluggedIn options root available).map (·.component))

/-- Whether a wired component has a bean of a name, in the module that the name says. -/
def Supplies (options : Options) (root : ModuleDecl) (available : List ModuleDecl)
    (plugged : Plugged) (name : QualifiedName) : Prop :=
  Wired options root available plugged ∧ plugged.component.name = name.modulePart ∧
    (plugged.component.bean? name).isSome

/-- The prepared root of a composition. -/
abbrev preparedRoot (options : Options) (root : ModuleDecl) (available : List ModuleDecl) :
    ModuleDecl :=
  prepared root (pluggedIn options root available)

theorem isProvidedBy_iff {name : QualifiedName} :
    isProvidedBy ((pluggedIn options root available).map (·.component)) name = true ↔
      ∃ plugged, Supplies options root available plugged name := by
  simp only [isProvidedBy_iff_exists, mem_pluggedIn_iff]
  rfl

/-- A placeholder stands for a bean of a wired component, under a name that the root does not
declare. -/
theorem spec_of_mem_placeholders {name : QualifiedName}
    (h : name ∈ placeholders options root available) :
    name.rendered ∉ root.declared ∧ ∃ plugged, Supplies options root available plugged name := by
  obtain ⟨hopen, hprovided⟩ := spec_of_mem_placeholderNames h
  rw [ModuleDecl.leavesOpen, Bool.and_eq_true, Bool.not_eq_true', ← Bool.not_eq_true,
    ModuleDecl.declares_iff_mem] at hopen
  exact ⟨hopen.2, isProvidedBy_iff.mp hprovided⟩

theorem declaredNames_prepared :
    (preparedRoot options root available).declaredNames =
      root.declaredNames ++ placeholders options root available :=
  declaredNames_withPlaceholders _

theorem declared_prepared :
    (preparedRoot options root available).declared =
      root.declared ++ (placeholders options root available).map QualifiedName.rendered :=
  declared_withPlaceholders _

theorem uses_prepared :
    (preparedRoot options root available).uses = root.uses := rfl

theorem not_leads_of_mem_placeholders
    (hclosed : (preparedRoot options root available).Closed) {name : QualifiedName}
    (h : name ∈ placeholders options root available) {b : String} :
    ¬ (Graph.build (preparedRoot options root available)).Leads name.rendered b := by
  rw [hclosed.leads_iff]
  rintro (hop | ⟨dependency, hu, -⟩)
  · refine ModuleDecl.not_hopsTo_of_mem_declared ?_ hop
    rw [declared_prepared]
    exact List.mem_append_right _ (List.mem_map_of_mem h)
  · rw [uses_prepared] at hu
    obtain ⟨bean, hb, -, hname⟩ := ModuleDecl.mem_uses_iff.mp hu
    refine (spec_of_mem_placeholders h).1 (hname ▸ ?_)
    exact List.mem_map_of_mem (List.mem_append_left _ (List.mem_map_of_mem hb))

/-! ## Stand-ins -/

theorem mem_standIns_iff {bean : Bean} :
    bean ∈ standIns root (pluggedIn options root available) ↔
      ∃ name ∈ placeholders options root available, ∃ plugged,
        Supplies options root available plugged name ∧ plugged.standIn name = bean := by
  simp only [standIns_eq nodup_names_pluggedIn, List.mem_filterMap,
    standIn?_eq_some_iff nodup_names_pluggedIn, mem_pluggedIn_iff, Supplies, and_assoc]
  rfl

/-! ## The view across the boundary -/

/-- The view of the root in which components are reduced to what is behind their beans. -/
abbrev boundaryView (options : Options) (root : ModuleDecl) (available : List ModuleDecl) :
    ModuleDecl :=
  withStandIns root (pluggedIn options root available)

theorem mem_uses_boundaryView_iff {source : String} {dependency : Dependency} :
    (source, dependency) ∈ (boundaryView options root available).uses ↔
      (source, dependency) ∈ root.uses ∨
        ∃ name ∈ placeholders options root available, ∃ plugged,
          Supplies options root available plugged name ∧ name.rendered = source ∧
            ∃ key provider, (key, provider) ∈
              providersBehind plugged.imported plugged.component name ∧
                { target := provider, label := key } = dependency := by
  rw [uses_withStandIns, List.mem_append]
  refine or_congr_right ?_
  simp only [standInUses, List.mem_flatMap, mem_standIns_iff, List.mem_map, Prod.mk.injEq]
  constructor
  · rintro ⟨_, ⟨name, hname, plugged, hsupplies, rfl⟩, _, hd, rfl, rfl⟩
    obtain ⟨⟨key, provider⟩, hmem, rfl⟩ := List.mem_map.mp hd
    exact ⟨name, hname, plugged, hsupplies, rfl, key, provider, hmem, rfl⟩
  · rintro ⟨name, hname, plugged, hsupplies, rfl, key, provider, hmem, rfl⟩
    refine ⟨_, ⟨name, hname, plugged, hsupplies, rfl⟩, _, ?_, rfl, rfl⟩
    exact List.mem_map.mpr ⟨(key, provider), hmem, rfl⟩

theorem mem_declared_boundaryView_iff {written : String} :
    written ∈ (boundaryView options root available).declared ↔
      written ∈ (preparedRoot options root available).declared :=
  mem_declared_withStandIns_iff nodup_names_pluggedIn

/-- The view has the hops of the prepared root: the dependencies of stand-ins navigate nothing. -/
theorem hops_boundaryView :
    (boundaryView options root available).hops =
      (preparedRoot options root available).hops := by
  have hmembers : (boundaryView options root available).members =
      (preparedRoot options root available).members := by
    rw [ModuleDecl.members, uses_withStandIns, List.flatMap_append,
      List.flatMap_eq_nil_iff.mpr fun _ => members_of_mem_standInUses nodup_names_pluggedIn,
      List.append_nil]
    rfl
  rw [ModuleDecl.hops, ModuleDecl.hops, hmembers]
  exact keepFirst_congr _ (fun _ => mem_declared_boundaryView_iff) _

/-- The view is closed if the prepared root is: what is plugged in is declared. -/
theorem closed_boundaryView
    (hclosed : (preparedRoot options root available).Closed) :
    (boundaryView options root available).Closed := by
  rintro ⟨source, dependency⟩ hu
  rw [mem_declared_boundaryView_iff]
  rcases mem_uses_boundaryView_iff.mp hu with hroot | ⟨name, -, plugged, hsupplies, -, hbehind⟩
  · exact hclosed _ hroot
  · obtain ⟨key, provider, hmem, rfl⟩ := hbehind
    obtain ⟨-, -, -, -, hget⟩ := mem_providersBehind_iff.mp hmem
    rw [declared_prepared]
    exact List.mem_append_left _
      (ModuleDecl.declares_iff_mem.mp (hsupplies.1.declares_of_get? hget))

/-- Whether something is plugged into a socket that a placeholder's bean reaches. -/
def Detour (options : Options) (root : ModuleDecl) (available : List ModuleDecl)
    (a b : String) : Prop :=
  ∃ name ∈ placeholders options root available, ∃ plugged,
    Supplies options root available plugged name ∧ name.rendered = a ∧
      ∃ key provider, (key, provider) ∈
        providersBehind plugged.imported plugged.component name ∧ provider.rendered = b

/-- The view has the links of the prepared root and the detours. -/
theorem leads_boundaryView_iff
    (hclosed : (preparedRoot options root available).Closed) {a b : String} :
    (Graph.build (boundaryView options root available)).Leads a b ↔
      (Graph.build (preparedRoot options root available)).Leads a b ∨
        Detour options root available a b := by
  rw [(closed_boundaryView hclosed).leads_iff, hclosed.leads_iff, or_assoc]
  refine or_congr ?_ ?_
  · simp only [ModuleDecl.HopsTo, hops_boundaryView]
  · simp only [mem_uses_boundaryView_iff, uses_prepared]
    constructor
    · rintro ⟨dependency, hroot | ⟨name, hname, plugged, hsupplies, rfl, key, provider, hmem, rfl⟩,
        rfl⟩
      · exact .inl ⟨dependency, hroot, rfl⟩
      · exact .inr ⟨name, hname, plugged, hsupplies, rfl, key, provider, hmem, rfl⟩
    · rintro (⟨dependency, hroot, rfl⟩ |
        ⟨name, hname, plugged, hsupplies, rfl, key, provider, hmem, rfl⟩)
      · exact ⟨dependency, .inl hroot, rfl⟩
      · exact ⟨_, .inr ⟨name, hname, plugged, hsupplies, rfl, key, provider, hmem, rfl⟩, rfl⟩

/-- Of the names that the root declares only those of beans lead on in the view. -/
theorem exists_bean_of_leads_boundaryView
    (hclosed : (preparedRoot options root available).Closed) {a b : String}
    (ha : a ∈ root.declared) (h : (Graph.build (boundaryView options root available)).Leads a b) :
    ∃ bean ∈ root.beans, bean.name.rendered = a := by
  rcases (closed_boundaryView hclosed).leads_iff.mp h with hop | ⟨dependency, hu, -⟩
  · refine absurd hop (ModuleDecl.not_hopsTo_of_mem_declared ?_)
    rw [mem_declared_boundaryView_iff, declared_prepared]
    exact List.mem_append_left _ ha
  · rcases mem_uses_boundaryView_iff.mp hu with hroot | ⟨name, hname, -, -, rfl, -⟩
    · obtain ⟨bean, hb, -, he⟩ := ModuleDecl.mem_uses_iff.mp hroot
      exact ⟨bean, hb, he⟩
    · exact absurd ha (spec_of_mem_placeholders hname).1

end Injection
