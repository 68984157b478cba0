import Injection.Proofs.Composition

/-!
# Cycles across components

The composite of a root and its components has the links of the prepared root, the dependencies
inside the components, and the way back from each socket to what is plugged into it. The check of
the root sees a component only by what is behind its beans, and finds a cycle exactly if the
composite has one through a bean of the root.

## Main definitions

* `Place` — a name of the root, or a name of a component.
* `Composite` — the composite relation.
-/

namespace Injection

open Relation

/-- Where a name is: in the graph of the root, or in the component with a module name. -/
inductive Place where
  | own (written : String)
  | inner (component : ModuleName) (written : String)

section Composite

variable (options : Options) (root : ModuleDecl) (available : List ModuleDecl)

/-- The place of a name of the prepared root: a placeholder is the bean of the component. -/
def placeOf (written : String) : Place :=
  match (placeholders options root available).find? (·.rendered == written) with
  | some name => .inner name.modulePart written
  | none => .own written

/-- One step from place to place. -/
inductive Composite : Place → Place → Prop
  /-- A link of the prepared root. -/
  | link {a b : String} (h : (Graph.build (preparedRoot options root available)).Leads a b) :
      Composite (placeOf options root available a) (placeOf options root available b)
  /-- A dependency inside a component. -/
  | inside {plugged : Plugged} {a b : String} (hwired : Wired options root available plugged)
      (h : plugged.component.DependsOn a b) :
      Composite (.inner plugged.component.name a) (.inner plugged.component.name b)
  /-- From a socket of a component to what is plugged into it. -/
  | back {plugged : Plugged} {socket : Socket} {provider : QualifiedName}
      (hwired : Wired options root available plugged) (hs : socket ∈ plugged.component.sockets)
      (h : plugged.imported.bindings.get? socket.name.localPart = some provider) :
      Composite (.inner plugged.component.name socket.name.rendered) (.own provider.rendered)

end Composite

variable {options : Options} {root : ModuleDecl} {available : List ModuleDecl} {a b : String}

/-! ## Places -/

theorem placeOf_eq_own (h : ∀ name ∈ placeholders options root available, name.rendered ≠ a) :
    placeOf options root available a = .own a := by
  have hnone : (placeholders options root available).find? (·.rendered == a) = none :=
    List.find?_eq_none.mpr fun name hname => by simpa using h name hname
  rw [placeOf, hnone]

theorem placeholders_inj {name name' : QualifiedName}
    (h : name ∈ placeholders options root available)
    (h' : name' ∈ placeholders options root available) (he : name.rendered = name'.rendered) :
    name = name' :=
  List.inj_on_of_nodup_map (nodup_map_keepFirst QualifiedName.rendered [] _) h h' he

theorem placeOf_eq_inner {name : QualifiedName} (h : name ∈ placeholders options root available) :
    placeOf options root available name.rendered = .inner name.modulePart name.rendered := by
  have hsome : ((placeholders options root available).find? (·.rendered == name.rendered)).isSome :=
    List.find?_isSome.mpr ⟨name, h, by simp⟩
  obtain ⟨found, hfound⟩ := Option.isSome_iff_exists.mp hsome
  have he : found.rendered = name.rendered := by simpa using List.find?_some hfound
  obtain rfl := placeholders_inj (List.mem_of_find?_eq_some hfound) h he
  rw [placeOf, hfound]

theorem placeOf_of_mem_declared (h : a ∈ root.declared) :
    placeOf options root available a = .own a :=
  placeOf_eq_own fun _ hname he => (spec_of_mem_placeholders hname).1 (he ▸ h)

/-! ## From the view to the composite -/

/-- A step of the view is a way through the composite: a detour leads into the component, from
dependency to dependency to a socket, and back. -/
theorem transGen_composite_of_leads (hclosed : (preparedRoot options root available).Closed)
    (h : (Graph.build (boundaryView options root available)).Leads a b) :
    TransGen (Composite options root available) (placeOf options root available a)
      (placeOf options root available b) := by
  rcases (leads_boundaryView_iff hclosed).mp h with hlink | hdetour
  · exact .single (.link hlink)
  · obtain ⟨name, hname, plugged, hsupplies, rfl, key, provider, hbehind, rfl⟩ := hdetour
    obtain ⟨hwired, hcomponent, -⟩ := hsupplies
    obtain ⟨socket, hsocket, hreached, rfl, hget⟩ := mem_providersBehind_iff.mp hbehind
    have hinside : ReflTransGen (Composite options root available)
        (.inner plugged.component.name name.rendered)
        (.inner plugged.component.name socket.name.rendered) :=
      ReflTransGen.lift (Place.inner plugged.component.name)
        (fun _ _ h => Composite.inside hwired h) _ _ (ModuleDecl.mem_reachedFrom_iff.mp hreached)
    have hdeclared := ModuleDecl.declares_iff_mem.mp (hwired.declares_of_get? hget)
    rw [placeOf_eq_inner hname, ← hcomponent, placeOf_of_mem_declared hdeclared]
    exact .tail' hinside (.back hwired hsocket hget)

/-! ## From the composite to the view -/

/-- Whether the view leads from a name to a place: to the name of the root, or to a placeholder
whose bean leads to the name inside the component. -/
def LeadsToPlace (options : Options) (root : ModuleDecl) (available : List ModuleDecl)
    (a : String) : Place → Prop
  | .own b => TransGen (Graph.build (boundaryView options root available)).Leads a b
  | .inner component b => ∃ name ∈ placeholders options root available, ∃ plugged,
      Supplies options root available plugged name ∧ plugged.component.name = component ∧
        TransGen (Graph.build (boundaryView options root available)).Leads a name.rendered ∧
          ReflTransGen plugged.component.DependsOn name.rendered b

theorem leadsToPlace_placeOf
    (h : TransGen (Graph.build (boundaryView options root available)).Leads a b) :
    LeadsToPlace options root available a (placeOf options root available b) := by
  by_cases hb : ∃ name ∈ placeholders options root available, name.rendered = b
  · obtain ⟨name, hname, rfl⟩ := hb
    obtain ⟨plugged, hsupplies⟩ := (spec_of_mem_placeholders hname).2
    rw [placeOf_eq_inner hname]
    exact ⟨name, hname, plugged, hsupplies, hsupplies.2.1, h, .refl⟩
  · push Not at hb
    rw [placeOf_eq_own hb]
    exact h

theorem placeOf_of_leads (hclosed : (preparedRoot options root available).Closed)
    (h : (Graph.build (preparedRoot options root available)).Leads a b) :
    placeOf options root available a = .own a :=
  placeOf_eq_own fun _ hname he => not_leads_of_mem_placeholders hclosed hname (he ▸ h)

/-- The view leads to every place that a name of the root leads to. -/
theorem leadsToPlace_of_transGen (hclosed : (preparedRoot options root available).Closed)
    {p : Place} (h : TransGen (Composite options root available) (.own a) p) :
    LeadsToPlace options root available a p := by
  induction h with
  | single hstep =>
    generalize hp : Place.own a = p' at hstep
    cases hstep with
    | link hlink =>
      rw [placeOf_of_leads hclosed hlink, Place.own.injEq] at hp
      subst hp
      exact leadsToPlace_placeOf (.single ((leads_boundaryView_iff hclosed).mpr (.inl hlink)))
    | inside => cases hp
    | back => cases hp
  | tail _ hstep ih =>
    cases hstep with
    | link hlink =>
      rw [placeOf_of_leads hclosed hlink] at ih
      exact leadsToPlace_placeOf
        (TransGen.tail ih ((leads_boundaryView_iff hclosed).mpr (.inl hlink)))
    | inside hwired hdepends =>
      obtain ⟨name, hname, plugged', hsupplies, hcomponent, hleads, hinside⟩ := ih
      obtain rfl := hsupplies.1.eq_of_name hwired hcomponent
      exact ⟨name, hname, _, hsupplies, rfl, hleads, hinside.tail hdepends⟩
    | @back plugged socket provider hwired hsocket hget =>
      obtain ⟨name, hname, plugged', hsupplies, hcomponent, hleads, hinside⟩ := ih
      obtain rfl := hsupplies.1.eq_of_name hwired hcomponent
      refine TransGen.tail hleads ((leads_boundaryView_iff hclosed).mpr (.inr ?_))
      have hbehind : (socket.name.localPart, provider) ∈
          providersBehind plugged'.imported plugged'.component name :=
        mem_providersBehind_iff.mpr
          ⟨socket, hsocket, ModuleDecl.mem_reachedFrom_iff.mpr hinside, rfl, hget⟩
      exact ⟨name, hname, plugged', hsupplies, rfl, _, provider, hbehind, rfl⟩

/-! ## Cycles -/

/-- The view has a cycle through a bean of the root exactly if the composite has one. -/
theorem transGen_boundaryView_iff (hclosed : (preparedRoot options root available).Closed)
    {bean : Bean} (hb : bean ∈ root.beans) :
    TransGen (Graph.build (boundaryView options root available)).Leads bean.name.rendered
        bean.name.rendered ↔
      TransGen (Composite options root available) (.own bean.name.rendered)
        (.own bean.name.rendered) := by
  have hdeclared : bean.name.rendered ∈ root.declared :=
    List.mem_map_of_mem (List.mem_append_left _ (List.mem_map_of_mem hb))
  refine ⟨fun h => ?_, leadsToPlace_of_transGen hclosed⟩
  rw [← placeOf_of_mem_declared hdeclared]
  exact TransGen.lift' (placeOf options root available)
    (fun _ _ h => transGen_composite_of_leads hclosed h) _ _ h

/-- A way through the view takes a detour, or is one of the prepared root. -/
theorem exists_detour_of_transGen (hclosed : (preparedRoot options root available).Closed)
    (h : TransGen (Graph.build (boundaryView options root available)).Leads a b) :
    TransGen (Graph.build (preparedRoot options root available)).Leads a b ∨
      ∃ x q, Detour options root available x q ∧
        ReflTransGen (Graph.build (boundaryView options root available)).Leads a x ∧
        ReflTransGen (Graph.build (boundaryView options root available)).Leads q b := by
  induction h with
  | single hstep =>
    rcases (leads_boundaryView_iff hclosed).mp hstep with hlink | hdetour
    · exact .inl (.single hlink)
    · exact .inr ⟨_, _, hdetour, .refl, .refl⟩
  | tail hbefore hstep ih =>
    rcases ih with hlinks | ⟨x, q, hdetour, hax, hqb⟩
    · rcases (leads_boundaryView_iff hclosed).mp hstep with hlink | hdetour
      · exact .inl (hlinks.tail hlink)
      · exact .inr ⟨_, _, hdetour, hbefore.to_reflTransGen, .refl⟩
    · exact .inr ⟨x, q, hdetour, hax, hqb.tail hstep⟩

/-- If the prepared root has no cycle, every cycle of the view goes through a bean of the root:
through what is plugged in at the end of a detour. -/
theorem exists_bean_of_cycle (hclosed : (preparedRoot options root available).Closed)
    (hacyclic : ∀ a, ¬ TransGen (Graph.build (preparedRoot options root available)).Leads a a)
    (h : TransGen (Graph.build (boundaryView options root available)).Leads a a) :
    ∃ bean ∈ root.beans,
      TransGen (Graph.build (boundaryView options root available)).Leads bean.name.rendered
        bean.name.rendered := by
  obtain ⟨x, q, hdetour, hax, hqa⟩ :=
    (exists_detour_of_transGen hclosed h).resolve_left (hacyclic a)
  have hround : TransGen (Graph.build (boundaryView options root available)).Leads q q :=
    .tail' (hqa.trans hax) ((leads_boundaryView_iff hclosed).mpr (.inr hdetour))
  obtain ⟨name, -, plugged, hsupplies, -, key, provider, hbehind, rfl⟩ := hdetour
  obtain ⟨-, -, -, -, hget⟩ := mem_providersBehind_iff.mp hbehind
  have hdeclared := ModuleDecl.declares_iff_mem.mp (hsupplies.1.declares_of_get? hget)
  obtain ⟨_, hstep, -⟩ := TransGen.head'_iff.mp hround
  obtain ⟨bean, hb, hname⟩ := exists_bean_of_leads_boundaryView hclosed hdeclared hstep
  exact ⟨bean, hb, hname ▸ hround⟩

/-- Cycles run through components exactly if the composite has a cycle through a bean of the
root. -/
theorem crossingCycles_ne_nil_iff {resolved : Resolved}
    (h : resolve options (preparedRoot options root available) = .ok resolved) :
    crossingCycles root (pluggedIn options root available) ≠ [] ↔
      ∃ bean ∈ root.beans, TransGen (Composite options root available)
        (.own bean.name.rendered) (.own bean.name.rendered) := by
  have hclosed := closed_of_resolve h
  have hacyclic : ∀ a,
      ¬ TransGen (Graph.build (preparedRoot options root available)).Leads a a := by
    intro a ha
    exact (Graph.sound_build _).cycles_ne_nil_iff.mpr ⟨a, ha⟩ (resolve_eq_ok_iff.mp h).2.1
  have hview : (Graph.build (boundaryView options root available)).cycles ≠ [] ↔
      ∃ bean ∈ root.beans, TransGen (Composite options root available)
        (.own bean.name.rendered) (.own bean.name.rendered) := by
    rw [(Graph.sound_build _).cycles_ne_nil_iff]
    constructor
    · rintro ⟨a, ha⟩
      obtain ⟨bean, hb, hcycle⟩ := exists_bean_of_cycle hclosed hacyclic ha
      exact ⟨bean, hb, (transGen_boundaryView_iff hclosed hb).mp hcycle⟩
    · rintro ⟨bean, hb, hcycle⟩
      exact ⟨_, (transGen_boundaryView_iff hclosed hb).mpr hcycle⟩
  rw [← hview, crossingCycles]
  split
  · next hempty =>
    -- without components there is no detour
    refine iff_of_false (fun hne => hne rfl) fun hne => ?_
    obtain ⟨a, ha⟩ := (Graph.sound_build _).cycles_ne_nil_iff.mp hne
    obtain ⟨x, q, ⟨name, -, plugged, hsupplies, -⟩, -⟩ :=
      (exists_detour_of_transGen hclosed ha).resolve_left (hacyclic a)
    have hmem := mem_pluggedIn_iff.mpr hsupplies.1
    rw [List.isEmpty_iff.mp hempty] at hmem
    cases hmem
  · rfl

/-- If the prepared root is resolved then the root fails with cycles exactly if the composite has a
cycle through a bean of the root, and is resolved otherwise. -/
theorem compose_detects_crossing {resolved : Resolved}
    (h : resolve options (preparedRoot options root available) = .ok resolved) :
    ∃ outcome, (compose options root available).root? = some outcome ∧
      ((∃ diagnostics, outcome.result = .error (.resolve (.cycles root.name diagnostics))) ↔
        ∃ bean ∈ root.beans, TransGen (Composite options root available)
          (.own bean.name.rendered) (.own bean.name.rendered)) ∧
      ((¬ ∃ bean ∈ root.beans, TransGen (Composite options root available)
          (.own bean.name.rendered) (.own bean.name.rendered)) →
        outcome.result = .ok resolved) := by
  refine ⟨_, root?_compose, ?_⟩
  rw [result_rootOutcome h, ← crossingCycles_ne_nil_iff h, checkCrossing]
  cases crossingCycles root (pluggedIn options root available) with
  | nil => simp [Except.map, Except.mapError]
  | cons cycle cycles => simp [Except.map, Except.mapError]

/-- A root that plugs into the pump what needs the pump. -/
def selfFeeding : ModuleDecl where
  name := "app"
  beans := [{ name := ⟨"app", "q"⟩, dependencies := [⟨⟨"c", "p"⟩, "p", .direct⟩] }]
  imports := [pumpImport]

theorem compose_detects_selfFeeding :
    ∃ outcome, (compose { generateDescriptor := false } selfFeeding [pump]).root? = some outcome ∧
      ∃ diagnostics, outcome.result = .error (.resolve (.cycles "app" diagnostics)) := by
  let options : Options := { generateDescriptor := false }
  have hok : (resolve options (preparedRoot options selfFeeding [pump])).toOption.isSome := by cbv
  cases h : resolve options (preparedRoot options selfFeeding [pump]) with
  | error fault => rw [h] at hok; cases hok
  | ok resolved =>
    obtain ⟨outcome, hroot, hlaw, -⟩ := compose_detects_crossing h
    refine ⟨outcome, hroot, hlaw.mpr ⟨_, List.mem_cons_self, ?_⟩⟩
    have hwired : Wired options selfFeeding [pump] ⟨pumpImport, pump⟩ :=
      ⟨List.mem_cons_self, rfl, rfl⟩
    have hlink : Composite options selfFeeding [pump] (.own "app:q") (.inner "c" "c:p") := by
      have hplaces : placeOf options selfFeeding [pump] "app:q" = .own "app:q" ∧
          placeOf options selfFeeding [pump] "c:p" = .inner "c" "c:p" := by
        constructor <;> cbv
      rw [← hplaces.1, ← hplaces.2]
      exact .link ((closed_of_resolve h).leads_iff.mpr (.inr ⟨_, List.mem_cons_self, rfl⟩))
    have hinside : Composite options selfFeeding [pump] (.inner "c" "c:p") (.inner "c" "c:s") :=
      .inside hwired ⟨{ name := ⟨"c", "p"⟩, dependencies := [⟨⟨"c", "s"⟩, "s", .direct⟩] }, _, rfl,
        List.mem_cons_self, rfl, rfl⟩
    have hback : Composite options selfFeeding [pump] (.inner "c" "c:s") (.own "app:q") :=
      .back hwired List.mem_cons_self rfl
    exact .tail (.tail (.single hlink) hinside) hback

end Injection
