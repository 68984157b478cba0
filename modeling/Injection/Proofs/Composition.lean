import Injection.Proofs.Boundary
import Injection.Proofs.Resolution

/-!
# The root of a composition

What becomes of the root, and the order of its beans. The order is that of the prepared root, in
which the beans of components are leaves: what is plugged into a component has no special place.
-/

namespace Injection

open Relation

variable {options : Options} {root : ModuleDecl} {available : List ModuleDecl}
  {outcome : Outcome} {resolved : Resolved}

theorem root?_compose :
    (compose options root available).root? =
      some (rootOutcome options root (pluggedIn options root available)) := by
  simp [Report.root?, compose]

/-- A prepared root that is resolved fails only if a cycle runs through a component. -/
theorem result_rootOutcome {components : List Plugged}
    (h : resolve options (prepared root components) = .ok resolved) :
    (rootOutcome options root components).result =
      ((checkCrossing root components).map fun _ => resolved).mapError .resolve := by
  simp only [rootOutcome, h, bind, Except.bind, pure, Except.pure]
  cases checkCrossing root components <;> rfl

theorem resolve_prepared_of_compose
    (hroot : (compose options root available).root? = some outcome)
    (h : outcome.result = .ok resolved) :
    resolve options (preparedRoot options root available) = .ok resolved := by
  rw [root?_compose, Option.some.injEq] at hroot
  subst hroot
  cases hresolve : resolve options (preparedRoot options root available) with
  | error fault => simp [rootOutcome, hresolve, bind, Except.bind, Except.mapError] at h
  | ok _ =>
    rw [result_rootOutcome hresolve] at h
    cases hcheck : checkCrossing root (pluggedIn options root available) with
    | error fault => simp [hcheck, Except.map, Except.mapError] at h
    | ok _ => simpa [hcheck, Except.map, Except.mapError] using h

/-- The order of the root, if it is resolved. -/
def Report.rootOrder? (report : Report) : Option (List String) :=
  (report.root?.bind (·.result.toOption)).map Resolved.written

theorem rootOrder?_eq_some_iff {report : Report} {names : List String} :
    report.rootOrder? = some names ↔ ∃ outcome resolved, report.root? = some outcome ∧
      outcome.result = .ok resolved ∧ resolved.written = names := by
  simp only [Report.rootOrder?, Option.map_eq_some_iff, Option.bind_eq_some_iff]
  constructor
  · rintro ⟨resolved, ⟨outcome, hroot, hok⟩, hnames⟩
    refine ⟨outcome, resolved, hroot, ?_, hnames⟩
    cases hresult : outcome.result <;> simp_all [Except.toOption]
  · rintro ⟨outcome, resolved, hroot, hok, hnames⟩
    exact ⟨resolved, ⟨outcome, hroot, by simp [hok, Except.toOption]⟩, hnames⟩

/-- What is plugged into a socket that a used bean of a component reaches comes before the bean's
placeholder exactly if all that it leads to is declared before the placeholder. It comes before the
using bean, too, if it comes before the placeholder and the dependency's chain ends there; in any
case exactly if each name that it leads to is declared before the using bean, or comes no later
than something that the using bean leads to. -/
theorem compose_orders_provider
    (hroot : (compose options root available).root? = some outcome)
    (hok : outcome.result = .ok resolved) {user : Bean} (huser : user ∈ root.beans)
    {dependency : Dependency} (hd : dependency ∈ user.dependencies)
    (hopen : root.declares dependency.target = false) {plugged : Plugged}
    (hwired : Wired options root available plugged) {key : String} {provider : QualifiedName}
    (hbehind : (key, provider) ∈
      providersBehind plugged.imported plugged.component dependency.target) :
    let m := preparedRoot options root available
    (Before resolved.written provider.rendered dependency.target.rendered ↔
      ∀ x, ReflTransGen (Graph.build m).Leads provider.rendered x →
        Before m.declared x dependency.target.rendered) ∧
    (Before resolved.written provider.rendered dependency.target.rendered →
      m.LeadsTo dependency.reference dependency.target.rendered →
        Before resolved.written provider.rendered user.name.rendered) ∧
    (Before resolved.written provider.rendered user.name.rendered ↔
      ∀ x, ReflTransGen (Graph.build m).Leads provider.rendered x →
        Before m.declared x user.name.rendered ∨
          ∃ y, (Graph.build m).Leads user.name.rendered y ∧
            (x = y ∨ Before resolved.written x y)) := by
  intro m
  have hresolve : resolve options m = .ok resolved := resolve_prepared_of_compose hroot hok
  have hm : m.Closed := closed_of_resolve hresolve
  have hu : (user.name.rendered, dependency) ∈ m.uses :=
    ModuleDecl.mem_uses_iff.mpr ⟨user, huser, hd, rfl⟩
  have hprovider : provider.rendered ∈ (Graph.build m).written := by
    obtain ⟨-, -, -, -, hget⟩ := mem_providersBehind_iff.mp hbehind
    have hdeclared := ModuleDecl.declares_iff_mem.mp (hwired.declares_of_get? hget)
    refine hm.mem_written_iff.mpr (.inl ?_)
    rw [declared_prepared]
    exact List.mem_append_left _ hdeclared
  have hundeclared : dependency.target.rendered ∉ root.declared := by
    rw [← ModuleDecl.declares_iff_mem, hopen]
    exact Bool.false_ne_true
  -- the target is a placeholder, and leads nowhere
  have hleaf : ∀ y, ¬ (Graph.build m).Leads dependency.target.rendered y := by
    have htarget := hm _ hu
    rw [declared_prepared, List.mem_append] at htarget
    obtain ⟨name, hname, hrendered⟩ := List.mem_map.mp (htarget.resolve_left hundeclared)
    exact fun y => hrendered ▸ not_leads_of_mem_placeholders hm hname
  refine ⟨?_, fun hbefore hends => ?_, ?_⟩
  · rw [before_iff_of_resolve hresolve hprovider (hm _ hu)]
    simp only [hleaf, false_and, exists_false, or_false]
  · have huser' := before_of_leads hresolve
      (.head' (hm.leads_iff.mpr (.inr ⟨_, hu, rfl⟩)) (hm.leads_of_leadsTo hends))
    exact hbefore.trans (nodup_written_of_resolve hresolve) huser'
  · refine before_iff_of_resolve hresolve hprovider ?_
    exact List.mem_map_of_mem (List.mem_append_left _ (List.mem_map_of_mem huser))

/-- A component with a bean that needs what is plugged in, and a bean that needs nothing. -/
def pump : ModuleDecl where
  name := "c"
  beans := [
    { name := ⟨"c", "p"⟩, dependencies := [⟨⟨"c", "s"⟩, "s", .direct⟩] },
    { name := ⟨"c", "z"⟩ }]
  sockets := [{ name := ⟨"c", "s"⟩ }]

def pumpImport : Import where
  component := "c"
  bindings := .ofList [("s", ⟨"app", "q"⟩)]

theorem mem_providersBehind_pump :
    ("s", ⟨"app", "q"⟩) ∈ providersBehind pumpImport pump ⟨"c", "p"⟩ := by
  rw [show providersBehind pumpImport pump ⟨"c", "p"⟩ = [("s", ⟨"app", "q"⟩)] by cbv]
  exact List.mem_cons_self

/-- A root that declares what it plugs in before it uses the component. -/
def earlyProvider : ModuleDecl where
  name := "app"
  beans := [
    { name := ⟨"app", "q"⟩ },
    { name := ⟨"app", "r"⟩, dependencies := [⟨⟨"c", "p"⟩, "p", .direct⟩] }]
  imports := [pumpImport]

theorem compose_orders_earlyProvider :
    ∃ outcome resolved,
      (compose { generateDescriptor := false } earlyProvider [pump]).root? = some outcome ∧
        outcome.result = .ok resolved ∧ Before resolved.written "app:q" "app:r" := by
  have horder : (compose { generateDescriptor := false } earlyProvider [pump]).rootOrder? =
      some ["app:q", "c:p", "app:r"] := by cbv
  obtain ⟨outcome, resolved, hroot, hok, hwritten⟩ := rootOrder?_eq_some_iff.mp horder
  have hwired : Wired { generateDescriptor := false } earlyProvider [pump] ⟨pumpImport, pump⟩ :=
    ⟨List.mem_cons_self, rfl, rfl⟩
  have hlaw := compose_orders_provider hroot hok
    (List.mem_cons_of_mem _ List.mem_cons_self) List.mem_cons_self (by decide) hwired
    mem_providersBehind_pump
  refine ⟨outcome, resolved, hroot, hok, hlaw.2.1 ?_ .refl⟩
  rw [hwritten]
  decide

/-- A root that declares what it plugs in after it uses the component. -/
def lateProvider : ModuleDecl where
  name := "app"
  beans := [
    { name := ⟨"app", "r"⟩, dependencies := [⟨⟨"c", "p"⟩, "p", .direct⟩] },
    { name := ⟨"app", "q"⟩, dependencies := [⟨⟨"c", "z"⟩, "z", .direct⟩] }]
  imports := [pumpImport]

/-- What is plugged into a component need not come before the beans that reach it. -/
theorem not_providers_first :
    ¬ ∀ (options : Options) (root : ModuleDecl) (available : List ModuleDecl) (outcome : Outcome)
      (resolved : Resolved), (compose options root available).root? = some outcome →
      outcome.result = .ok resolved → ∀ user ∈ root.beans, ∀ dependency ∈ user.dependencies,
      root.declares dependency.target = false → ∀ plugged, Wired options root available plugged →
      (plugged.component.bean? dependency.target).isSome → ∀ key provider,
      (key, provider) ∈ providersBehind plugged.imported plugged.component dependency.target →
        Before resolved.written provider.rendered dependency.target.rendered ∧
          Before resolved.written provider.rendered user.name.rendered := by
  intro hall
  have horder : (compose { generateDescriptor := false } lateProvider [pump]).rootOrder? =
      some ["c:p", "app:r", "c:z", "app:q"] := by cbv
  obtain ⟨outcome, resolved, hroot, hok, hwritten⟩ := rootOrder?_eq_some_iff.mp horder
  have hwired : Wired { generateDescriptor := false } lateProvider [pump] ⟨pumpImport, pump⟩ :=
    ⟨List.mem_cons_self, rfl, rfl⟩
  have hbefore := hall _ _ _ outcome resolved hroot hok _ List.mem_cons_self _ List.mem_cons_self
    (by decide) _ hwired (by decide) _ _ mem_providersBehind_pump
  rw [hwritten] at hbefore
  exact absurd hbefore (by decide)

end Injection
