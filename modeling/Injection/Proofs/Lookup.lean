import Injection.Proofs.Outcomes

/-!
# Looking up outcomes

A look-up by name finds the first outcome of that name. The components of a report have different
names, and the root has a name of its own unless it imports itself: then the look-up finds what
became of that import, and the outcome of the root itself stays hidden behind it.

## Main definitions

* `ModuleDecl.ImportsItself` — whether a module selects an import of its own name.
-/

namespace Injection

/-! ## The names of a report -/

/-- Whether a module imports a module of its own name, and that import counts. -/
def ModuleDecl.ImportsItself (m : ModuleDecl) : Prop := m.name ∈ m.importNames ∧ m.Selects m.name

variable {options : Options} {root : ModuleDecl} {available : List ModuleDecl}
  {outcome other : Outcome} {home : ModuleName} {resolved : Resolved}

theorem outcomes_compose : (compose options root available).outcomes =
    (compose options root available).components ++
      [rootOutcome options root (pluggedIn options root available)] := by
  rw [components_compose]
  rfl

theorem nodup_names_components :
    ((compose options root available).components.map (·.home)).Nodup := by
  rw [names_components_compose]
  exact nodup_map_keepFirst _ _ _

theorem name_mem_names_components_iff :
    root.name ∈ (compose options root available).components.map (·.home) ↔
      root.ImportsItself := by
  rw [names_components_compose]
  exact ModuleDecl.mem_map_component_selection

theorem nodup_names_outcomes_iff :
    ((compose options root available).outcomes.map (·.home)).Nodup ↔ ¬ root.ImportsItself := by
  rw [outcomes_compose, List.map_append, ← name_mem_names_components_iff, List.nodup_append]
  constructor
  · exact fun ⟨_, _, hne⟩ hmem => hne _ hmem root.name (by simp [rootOutcome]) rfl
  · refine fun hnew => ⟨nodup_names_components, List.nodup_singleton _, fun a ha b hb he => ?_⟩
    obtain rfl := List.mem_singleton.mp hb
    subst he
    exact hnew ha

/-- A report has one outcome of a name, unless the root imports itself and the name is its own. -/
theorem eq_of_home_eq (houtcome : outcome ∈ (compose options root available).outcomes)
    (hother : other ∈ (compose options root available).outcomes)
    (hname : outcome.home = root.name → ¬ root.ImportsItself) (he : outcome.home = other.home) :
    outcome = other := by
  rw [outcomes_compose, List.mem_append, List.mem_singleton] at houtcome hother
  -- a component that bears the root's name is an import of the root by itself
  have hnotRoot : ∀ {a : Outcome}, a ∈ (compose options root available).components →
      a.home = outcome.home → a.home ≠ root.name := by
    intro a ha hhome hroot
    refine hname (hhome ▸ hroot) ?_
    exact name_mem_names_components_iff.mp (List.mem_map.mpr ⟨a, ha, hroot⟩)
  rcases houtcome with houtcome | rfl <;> rcases hother with hother | rfl
  · exact List.inj_on_of_nodup_map nodup_names_components houtcome hother he
  · exact absurd he (hnotRoot houtcome rfl)
  · exact absurd he.symm (hnotRoot hother he.symm)
  · rfl

/-! ## Look-ups in a report -/

theorem outcome?_compose_eq_some_iff (hname : home = root.name → ¬ root.ImportsItself) :
    (compose options root available).outcome? home = some outcome ↔
      outcome ∈ (compose options root available).outcomes ∧ outcome.home = home := by
  rw [Report.outcome?, find?_eq_some_iff_of_unique, beq_iff_eq]
  intro a ha b hb hahome hbhome
  obtain rfl := beq_iff_eq.mp hahome
  exact eq_of_home_eq ha hb hname (beq_iff_eq.mp hbhome).symm

theorem Report.resolved?_eq_some_iff {report : Report} :
    report.resolved? home = some resolved ↔
      ∃ outcome, report.outcome? home = some outcome ∧ outcome.result = .ok resolved := by
  rw [resolved?, Option.bind_eq_some_iff]
  refine exists_congr fun outcome => and_congr_right fun _ => ?_
  cases outcome.result <;> simp [Except.toOption]

/-- If the root imports itself, its name has two outcomes: that of the import, then its own. -/
theorem filter_outcomes_of_importsItself (h : root.ImportsItself) : ∃ imported,
    root.imports.find? (·.component == root.name) = some imported ∧
      (compose options root available).outcomes.filter (·.home == root.name) =
        [importOutcome options root available imported,
          rootOutcome options root (pluggedIn options root available)] := by
  have hname : root.name ∈ (compose options root available).components.map (·.home) :=
    name_mem_names_components_iff.mpr h
  obtain ⟨outcome, houtcome, hhome⟩ := List.mem_map.mp hname
  obtain ⟨-, imported, hfirst, rfl⟩ := mem_components_compose_iff.mp houtcome
  rw [hhome] at hfirst
  refine ⟨imported, hfirst, ?_⟩
  have hfound : (compose options root available).components.find? (·.home == root.name) =
      some (importOutcome options root available imported) := by
    refine (find?_eq_some_iff_of_unique fun a ha b hb hahome hbhome => ?_).mpr
      ⟨houtcome, beq_iff_eq.mpr hhome⟩
    refine List.inj_on_of_nodup_map nodup_names_components ha hb ?_
    rw [beq_iff_eq.mp hahome, beq_iff_eq.mp hbhome]
  have hroot : [rootOutcome options root (pluggedIn options root available)].filter
      (·.home == root.name) = [rootOutcome options root (pluggedIn options root available)] := by
    simp [rootOutcome]
  rw [outcomes_compose, List.filter_append, hroot,
    filter_key_eq_toList_find? nodup_names_components, hfound]
  rfl

/-- The outcomes of a composition have different names exactly if the root does not import itself.
Then each name that is looked up, and otherwise each one but that of the root, has the outcome that
is recorded for it, and is resolved exactly if that outcome is. If the root imports itself, two
outcomes are recorded for its name, and the look-up finds that of the import. -/
theorem compose_lookups (options : Options) (root : ModuleDecl) (available : List ModuleDecl) :
    let report := compose options root available
    ((report.outcomes.map (·.home)).Nodup ↔ ¬ root.ImportsItself) ∧
    (∀ home, (home = root.name → ¬ root.ImportsItself) →
      (∀ outcome, report.outcome? home = some outcome ↔
        outcome ∈ report.outcomes ∧ outcome.home = home) ∧
      ∀ resolved, report.resolved? home = some resolved ↔
        ∃ outcome ∈ report.outcomes, outcome.home = home ∧ outcome.result = .ok resolved) ∧
    (¬ root.ImportsItself → report.outcome? root.name = report.root?) ∧
    (root.ImportsItself → ∃ imported,
      root.imports.find? (·.component == root.name) = some imported ∧
        report.outcomes.filter (·.home == root.name) =
          [importOutcome options root available imported,
            rootOutcome options root (pluggedIn options root available)] ∧
        report.outcome? root.name = some (importOutcome options root available imported)) := by
  intro report
  refine ⟨nodup_names_outcomes_iff, fun home hname => ⟨fun outcome => ?_, fun resolved => ?_⟩,
    fun hforeign => ?_, fun hitself => ?_⟩
  · exact outcome?_compose_eq_some_iff hname
  · rw [Report.resolved?_eq_some_iff]
    refine exists_congr fun outcome => ?_
    rw [outcome?_compose_eq_some_iff hname, and_assoc]
  · rw [root?_compose]
    refine (outcome?_compose_eq_some_iff fun _ => hforeign).mpr ⟨?_, rfl⟩
    rw [outcomes_compose]
    exact List.mem_append_right _ List.mem_cons_self
  · obtain ⟨imported, hfirst, hrecorded⟩ := filter_outcomes_of_importsItself hitself
    refine ⟨imported, hfirst, hrecorded, ?_⟩
    rw [Report.outcome?, ← List.head?_filter, hrecorded]
    rfl

/-- A root that imports a module of its own name. -/
def selfImporting : ModuleDecl where
  name := "app"
  beans := [{ name := ⟨"app", "b"⟩ }]
  imports := [{ component := "app" }]

theorem importsItself_selfImporting : selfImporting.ImportsItself :=
  ⟨List.mem_cons_self, by decide⟩

/-- The root is looked up by its name if it imports the pump, but not if it imports itself. -/
theorem compose_lookups_selfImporting :
    ¬ earlyProvider.ImportsItself ∧
      (compose {} earlyProvider [pump]).outcome? "app" =
        (compose {} earlyProvider [pump]).root? ∧
      selfImporting.ImportsItself ∧
      (compose {} selfImporting []).outcome? "app" =
        some ⟨"app", .error (.missingComponent "app" "app")⟩ := by
  have hforeign : ¬ earlyProvider.ImportsItself := fun h => absurd h.1 (by decide)
  obtain ⟨-, -, hroot, -⟩ := compose_lookups {} earlyProvider [pump]
  obtain ⟨-, -, -, hitself⟩ := compose_lookups {} selfImporting []
  obtain ⟨imported, hfirst, -, hfound⟩ := hitself importsItself_selfImporting
  refine ⟨hforeign, hroot hforeign, importsItself_selfImporting, hfound.trans ?_⟩
  obtain rfl : { component := "app" } = imported := Option.some.inj hfirst
  rfl

/-- A root that imports itself can be resolved, and yet not be found by its name. -/
theorem not_found_by_name :
    let report := compose { generateDescriptor := false } selfImporting []
    ¬ (report.outcomes.map (·.home)).Nodup ∧ report.outcome? "app" ≠ report.root? ∧
      report.resolved? "app" = none ∧
        ∃ outcome ∈ report.outcomes, outcome.home = "app" ∧ outcome.isOk = true := by
  intro report
  have horder : report.rootOrder? = some ["app:b"] := by cbv
  obtain ⟨outcome, resolved, hroot, hok, -⟩ := rootOrder?_eq_some_iff.mp horder
  have hfound : report.outcome? "app" =
      some ⟨"app", .error (.missingComponent "app" "app")⟩ := rfl
  refine ⟨fun hnodup => ?_, fun he => ?_, rfl, outcome, ?_, ?_, ?_⟩
  · exact nodup_names_outcomes_iff.mp hnodup importsItself_selfImporting
  · rw [hfound, hroot] at he
    rw [← Option.some.inj he] at hok
    cases hok
  · exact List.mem_of_getLast? hroot
  · rw [root?_compose] at hroot
    exact congrArg Outcome.home (Option.some.inj hroot).symm
  · rw [Outcome.isOk, hok]
    rfl

end Injection
