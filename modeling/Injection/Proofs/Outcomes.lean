import Injection.Proofs.Composition
import Injection.Proofs.Selection

/-!
# The report of a composition

The report has an outcome for each component that is selected, in the order in which the components
are first imported, and one for the root at the end. The outcome of a component depends on nothing
but the import, the available module that it finds, and what the root declares: other imports and
other modules, and whether they fail, leave it as it is.

## Main definitions

* `Report.components` — the outcomes of the components.
* `Outcome.Tells` — whether an outcome is what becomes of the component of an import.
-/

namespace Injection

/-- The outcomes before the last one. -/
def Report.components (report : Report) : List Outcome := report.outcomes.dropLast

/-- Whether an outcome is what becomes of the component of an import: it is missing, or does not
fit, or else is resolved as it stands. -/
structure Outcome.Tells (options : Options) (root : ModuleDecl) (available : List ModuleDecl)
    (imported : Import) (outcome : Outcome) : Prop where
  home : outcome.home = imported.component
  missing : available.find? (·.name == imported.component) = none →
    outcome.result = .error (.missingComponent root.name imported.component)
  unfit : ∀ component fault,
    available.find? (·.name == imported.component) = some component →
      checkFit root imported component options.supportedVersion = .error fault →
        outcome.result = .error fault
  fit : ∀ component, available.find? (·.name == imported.component) = some component →
    checkFit root imported component options.supportedVersion = .ok () →
      outcome.result = (resolve options component).mapError .resolve

variable {options : Options} {root root' : ModuleDecl} {available available' : List ModuleDecl}
  {imported : Import} {outcome : Outcome}

theorem components_compose :
    (compose options root available).components =
      root.selection.map (importOutcome options root available) := by
  simp [Report.components, compose]

theorem names_components_compose :
    (compose options root available).components.map (·.home) =
      root.selection.map (·.component) := by
  rw [components_compose, List.map_map]
  rfl

theorem tells_importOutcome :
    (importOutcome options root available imported).Tells options root available imported := by
  refine ⟨rfl, fun hnone => ?_, fun component fault hfound hunfit => ?_,
    fun component hfound hfits => ?_⟩
  · simp [importOutcome, plug, hnone, bind, Except.bind]
  · simp [importOutcome, plug, hfound, hunfit, bind, Except.bind]
  · simp [importOutcome, plug, hfound, hfits, bind, Except.bind, pure, Except.pure]

/-- Whether a component fits depends on the name of the importer and on what it declares. -/
theorem checkFit_congr (hname : root'.name = root.name) (hbeans : root'.beans = root.beans)
    (hsockets : root'.sockets = root.sockets) {component : ModuleDecl} {supported : UInt32} :
    checkFit root' imported component supported = checkFit root imported component supported := by
  have hdeclares : root'.declares = root.declares := by
    funext name
    simp only [ModuleDecl.declares, ModuleDecl.bean?, ModuleDecl.socket?, hbeans, hsockets]
  have hfault : bindingFault? root' component = bindingFault? root component := by
    funext key provider
    simp only [bindingFault?, hname, hdeclares]
  rw [checkFit, checkFit, hfault, hname]

theorem importOutcome_congr (hname : root'.name = root.name) (hbeans : root'.beans = root.beans)
    (hsockets : root'.sockets = root.sockets)
    (hfound : available'.find? (·.name == imported.component) =
      available.find? (·.name == imported.component)) :
    importOutcome options root' available' imported =
      importOutcome options root available imported := by
  simp only [importOutcome, plug, hname, hfound, checkFit_congr hname hbeans hsockets]

/-- A component's outcome is that of the first import of the component. -/
theorem mem_components_compose_iff :
    outcome ∈ (compose options root available).components ↔
      root.Selects outcome.home ∧ ∃ imported,
        root.imports.find? (·.component == outcome.home) = some imported ∧
          importOutcome options root available imported = outcome := by
  rw [components_compose, List.mem_map]
  constructor
  · rintro ⟨imported, hselected, rfl⟩
    obtain ⟨hfirst, hselects⟩ := ModuleDecl.mem_selection_iff.mp hselected
    exact ⟨hselects, imported, hfirst, rfl⟩
  · rintro ⟨hselects, imported, hfirst, rfl⟩
    exact ⟨imported, ModuleDecl.mem_selection_iff.mpr ⟨hfirst, hselects⟩, rfl⟩

/-- The report of a composition has one outcome for each component that is imported and selected, in
the order of the first imports, and at the end that of the root, under the name of the root. The
outcome of a component is that of its first import and of the first available module of its name. It
stays the same in every other composition in which the root has the same name, beans and sockets,
still selects the component by that import, and finds that module. -/
theorem compose_reports (options : Options) (root : ModuleDecl) (available : List ModuleDecl) :
    let report := compose options root available
    let last := rootOutcome options root (pluggedIn options root available)
    (report.outcomes = report.components ++ [last] ∧ last.home = root.name) ∧
    (∀ name, name ∈ report.components.map (·.home) ↔ name ∈ root.importNames ∧ root.Selects name) ∧
    (report.components.map (·.home)).Pairwise (fun a b =>
      root.importNames.idxOf a < root.importNames.idxOf b) ∧
    (∀ outcome ∈ report.components, ∃ imported,
      root.imports.find? (·.component == outcome.home) = some imported ∧
        outcome.Tells options root available imported) ∧
    ∀ root' available', root'.name = root.name → root'.beans = root.beans →
      root'.sockets = root.sockets → ∀ outcome ∈ report.components,
      root'.imports.find? (·.component == outcome.home) =
        root.imports.find? (·.component == outcome.home) →
      root'.Selects outcome.home →
      available'.find? (·.name == outcome.home) = available.find? (·.name == outcome.home) →
        outcome ∈ (compose options root' available').components := by
  intro report last
  refine ⟨⟨?_, rfl⟩, fun name => ?_, ?_, fun outcome houtcome => ?_, ?_⟩
  · rw [components_compose]
    rfl
  · rw [names_components_compose]
    exact ModuleDecl.mem_map_component_selection
  · rw [names_components_compose]
    exact root.pairwise_selection
  · obtain ⟨-, imported, hfirst, rfl⟩ := mem_components_compose_iff.mp houtcome
    exact ⟨imported, hfirst, tells_importOutcome⟩
  · intro root' available' hname hbeans hsockets outcome houtcome himport hselects hfound
    obtain ⟨-, imported, hfirst, rfl⟩ := mem_components_compose_iff.mp houtcome
    refine mem_components_compose_iff.mpr ⟨hselects, imported, himport.trans hfirst, ?_⟩
    exact importOutcome_congr hname hbeans hsockets hfound

/-- A root that imports the pump between a component that is missing and one that is excluded, and
imports it again without plugging anything in. -/
def crowded : ModuleDecl :=
  { earlyProvider with
    imports := [⟨"x", .empty⟩, pumpImport, ⟨"e", .empty⟩, ⟨"c", .empty⟩]
    excludes := .ofNames ["e"] }

/-- What becomes of the pump is what becomes of it when it is imported alone. -/
theorem compose_reports_crowded :
    ∃ outcome ∈ (compose {} crowded [pump]).components, outcome.home = "c" ∧
      outcome.Tells {} crowded [pump] pumpImport ∧
        outcome ∈ (compose {} earlyProvider [pump, { pump with version := 2 }]).components := by
  obtain ⟨-, hnames, -, htells, hsame⟩ := compose_reports {} crowded [pump]
  have hselects : crowded.Selects "c" ∧ earlyProvider.Selects "c" := by decide
  obtain ⟨outcome, houtcome, hhome⟩ :=
    List.mem_map.mp ((hnames "c").mpr ⟨by decide, hselects.1⟩)
  obtain ⟨imported, hfirst, htells⟩ := htells outcome houtcome
  rw [hhome] at hfirst
  obtain rfl : pumpImport = imported := Option.some.inj hfirst
  refine ⟨outcome, houtcome, hhome, htells, ?_⟩
  exact hsame earlyProvider _ rfl rfl rfl outcome houtcome (by rw [hhome]; rfl)
    (hhome ▸ hselects.2) (by rw [hhome]; rfl)

end Injection
