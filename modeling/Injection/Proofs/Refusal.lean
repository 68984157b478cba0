import Injection.Proofs.Acyclic
import Injection.Proofs.Composition
import Injection.Proofs.Name

/-!
# What a root is refused for

The declarations of a root are checked in its prepared form, in which the beans of components that
it uses are declared as well. That adds no foreign bean and repeats no name; and a dependency is
met if its target is declared by the root, or is written like a target that a component offers.

## Main definitions

* `ModuleDecl.demands` — the targets of all dependencies, each behind its bean.
* `Offered` — whether a component that fits has a bean of a name.
* `Unmet` — whether a target is neither declared nor offered.
-/

namespace Injection

/-! ## Faults of declarations -/

/-- Names that are new and different from each other are not the first to repeat one. -/
theorem firstRepeated_append {seen : List String} {front back : List QualifiedName}
    (hnodup : (back.map QualifiedName.rendered).Nodup) (hseen : ∀ name ∈ back, name.rendered ∉ seen)
    (hfront : ∀ name ∈ back, name.rendered ∉ front.map QualifiedName.rendered) :
    firstRepeated seen (front ++ back) = firstRepeated seen front := by
  induction front generalizing seen with
  | nil => exact firstRepeated_eq_none_iff.mpr ⟨hnodup, hseen⟩
  | cons first rest ih =>
    simp only [List.map_cons, List.mem_cons, not_or] at hfront
    rw [List.cons_append, firstRepeated, firstRepeated]
    split
    · rfl
    · refine ih (fun name hname => ?_) fun name hname => (hfront name hname).2
      rw [List.mem_cons, not_or]
      exact ⟨(hfront name hname).1, hseen name hname⟩

namespace ModuleDecl

variable {m : ModuleDecl} {home : ModuleName} {name bean target : QualifiedName}

/-- The targets of all dependencies, each behind the name of its bean, in order. -/
def demands (m : ModuleDecl) : List (QualifiedName × QualifiedName) :=
  m.beans.flatMap fun bean => bean.dependencies.map fun dependency => (bean.name, dependency.target)

theorem map_snd_demands (m : ModuleDecl) : m.demands.map Prod.snd = m.targets := by
  simp [demands, targets, List.map_flatMap, Function.comp_def]

theorem dangling?_eq (m : ModuleDecl) :
    m.dangling?.map (fun found => (found.1.name, found.2.target)) =
      m.demands.find? fun demand => !m.declares demand.2 := by
  rw [dangling?, demands, List.find?_flatMap, List.map_findSome?]
  congr 1
  funext bean
  simp [List.find?_map, Function.comp_def]

theorem validate_eq_error_foreign_iff : m.validate = .error (.foreign home name) ↔
    home = m.name ∧ m.foreign?.map (·.name) = some name := by
  rw [validate]
  cases m.foreign? <;> cases m.repeated? <;> cases m.dangling? <;> simp [eq_comm]

theorem validate_eq_error_duplicate_iff : m.validate = .error (.duplicate home name) ↔
    home = m.name ∧ m.foreign? = none ∧ m.repeated? = some name := by
  rw [validate]
  cases m.foreign? <;> cases m.repeated? <;> cases m.dangling? <;> simp [eq_comm]

/-- The fault of an undeclared target is that of the first one. -/
theorem validate_eq_error_malformed_iff : m.validate = .error (.malformed home bean target) ↔
    home = m.name ∧ m.foreign? = none ∧ m.repeated? = none ∧
      m.demands.find? (fun demand => !m.declares demand.2) = some (bean, target) := by
  rw [validate, ← dangling?_eq]
  cases m.foreign? <;> cases m.repeated? <;> cases m.dangling? <;> simp [eq_comm]

/-- The names of a module are sound if validation finds neither a foreign nor a repeated one. -/
theorem sound_names_iff : (∀ home name, m.validate ≠ .error (.foreign home name) ∧
    m.validate ≠ .error (.duplicate home name)) ↔ m.foreign? = none ∧ m.repeated? = none := by
  simp only [ne_eq, validate_eq_error_foreign_iff, validate_eq_error_duplicate_iff]
  cases m.foreign? <;> cases m.repeated? <;> simp

end ModuleDecl

/-! ## Targets of a root -/

variable {options : Options} {root : ModuleDecl} {available : List ModuleDecl}
  {home : ModuleName} {name bean target : QualifiedName} {fault : ModuleFault}

/-- Whether a component that fits has a bean of a name: the component has the supported version, and
its own name is the module part of the bean's name and not the name of the root. -/
def Offered (options : Options) (root : ModuleDecl) (available : List ModuleDecl)
    (name : QualifiedName) : Prop :=
  ∃ plugged, Supplies options root available plugged name ∧
    plugged.component.version = options.supportedVersion ∧ plugged.component.name ≠ root.name

/-- Whether a target is not declared by the root, and no target that is written like it is
offered. -/
def Unmet (options : Options) (root : ModuleDecl) (available : List ModuleDecl)
    (target : QualifiedName) : Prop :=
  root.declares target = false ∧
    ∀ other ∈ root.targets, other.rendered = target.rendered →
      ¬ Offered options root available other

theorem Wired.version_eq {plugged : Plugged} (h : Wired options root available plugged) :
    plugged.component.version = options.supportedVersion :=
  (checkFit_eq_ok_iff.mp h.fits).version

theorem offered_iff : Offered options root available name ↔
    name.modulePart ≠ root.name ∧ ∃ plugged, Supplies options root available plugged name := by
  constructor
  · rintro ⟨plugged, hsupplies, -, hname⟩
    exact ⟨hsupplies.2.1 ▸ hname, plugged, hsupplies⟩
  · rintro ⟨hname, plugged, hsupplies⟩
    exact ⟨plugged, hsupplies, hsupplies.1.version_eq, hsupplies.2.1 ▸ hname⟩

/-- A name that is written in one way only is unmet if it is neither declared nor offered itself. -/
theorem QualifiedName.IsPlain.unmet_iff (h : target.IsPlain) (htarget : target ∈ root.targets) :
    Unmet options root available target ↔
      root.declares target = false ∧ ¬ Offered options root available target := by
  refine and_congr_right fun _ => ⟨fun hnone => hnone target htarget rfl, ?_⟩
  intro hnot other _ hother
  rwa [h.eq_of_rendered_eq hother]

/-! ## Faults of the prepared root -/

theorem mem_placeholders_iff {written : String} :
    written ∈ (placeholders options root available).map QualifiedName.rendered ↔
      written ∉ root.declared ∧
        ∃ other ∈ root.targets, other.rendered = written ∧
          Offered options root available other := by
  rw [placeholders, placeholderNames, ModuleDecl.componentTargets, QualifiedName.distinct,
    distinctBy, mem_map_keepFirst, List.mem_map]
  simp only [List.mem_filter, ModuleDecl.leavesOpen, Bool.and_eq_true, bne_iff_ne, ne_eq,
    Bool.not_eq_true', ← Bool.not_eq_true, ModuleDecl.declares_iff_mem, isProvidedBy_iff,
    List.not_mem_nil, not_false_eq_true, and_true, offered_iff]
  constructor
  · rintro ⟨other, ⟨hother, ⟨hmodule, hundeclared⟩, hsupplied⟩, rfl⟩
    exact ⟨hundeclared, other, hother, rfl, hmodule, hsupplied⟩
  · rintro ⟨hundeclared, other, hother, rfl, hmodule, hsupplied⟩
    exact ⟨other, ⟨hother, ⟨hmodule, hundeclared⟩, hsupplied⟩, rfl⟩

/-- The prepared root declares the names that are met. -/
theorem declares_prepared_iff :
    (preparedRoot options root available).declares target = true ↔
      ¬ Unmet options root available target := by
  rw [Unmet, ← Bool.not_eq_true, ModuleDecl.declares_iff_mem, ModuleDecl.declares_iff_mem,
    declared_prepared, List.mem_append, mem_placeholders_iff]
  push Not
  constructor
  · rintro (hdeclared | ⟨-, hoffered⟩) hundeclared
    · exact absurd hdeclared hundeclared
    · exact hoffered
  · intro h
    by_cases hdeclared : target.rendered ∈ root.declared
    · exact .inl hdeclared
    · exact .inr ⟨hdeclared, h hdeclared⟩

theorem foreign?_prepared : (preparedRoot options root available).foreign? = root.foreign? := rfl

theorem demands_prepared : (preparedRoot options root available).demands = root.demands := rfl

/-- Placeholders repeat no name. -/
theorem repeated?_prepared : (preparedRoot options root available).repeated? = root.repeated? := by
  rw [ModuleDecl.repeated?, ModuleDecl.repeated?, declaredNames_prepared]
  refine firstRepeated_append (nodup_map_keepFirst _ _ _) (by simp) fun name hname => ?_
  exact (spec_of_mem_placeholders hname).1

/-- What the check of the root for cycles adds are faults for cycles. -/
theorem result_rootOutcome_eq_error_iff {components : List Plugged}
    (hfault : ∀ home diagnostics, fault ≠ .cycles home diagnostics) :
    (rootOutcome options root components).result = .error (.resolve fault) ↔
      (prepared root components).validate = .error fault := by
  cases hv : (prepared root components).validate with
  | error other =>
    simp [rootOutcome, resolve_eq_error_of_validate hv, bind, Except.bind, Except.mapError]
  | ok _ =>
    refine iff_of_false (fun h => ?_) (by simp)
    by_cases hc : (Graph.build (prepared root components)).cycles = []
    · obtain ⟨resolved, hresolve⟩ : ∃ resolved, resolve options (prepared root components) =
        .ok resolved := exists_resolve_eq_ok hv hc
      rw [result_rootOutcome hresolve, checkCrossing] at h
      split at h
      · cases h
      · exact hfault _ _ (CompositionFault.resolve.inj (Except.error.inj h)).symm
    · rw [rootOutcome, resolve_eq_error_of_cycles hv hc] at h
      exact hfault _ _ (CompositionFault.resolve.inj (Except.error.inj h)).symm

/-! ## Faults of the root -/

theorem find?_demands_prepared :
    root.demands.find? (fun demand => !(preparedRoot options root available).declares demand.2) =
        some (bean, target) ↔
      ∃ front back, root.demands = front ++ (bean, target) :: back ∧
        Unmet options root available target ∧
          ∀ demand ∈ front, ¬ Unmet options root available demand.2 := by
  rw [List.find?_eq_some_iff_append]
  simp only [Bool.not_not, Bool.not_eq_true', ← Bool.not_eq_true, declares_prepared_iff, not_not]
  constructor
  · rintro ⟨hunmet, front, back, hsplit, hfront⟩
    exact ⟨front, back, hsplit, hunmet, hfront⟩
  · rintro ⟨front, back, hsplit, hunmet, hfront⟩
    exact ⟨hunmet, front, back, hsplit, hfront⟩

/-- A prepared root whose names are sound is refused for a target exactly if one is unmet. -/
theorem exists_malformed_prepared_iff (hforeign : root.foreign? = none)
    (hrepeated : root.repeated? = none) :
    (∃ home bean target,
      (preparedRoot options root available).validate = .error (.malformed home bean target)) ↔
      ∃ demand ∈ root.demands, Unmet options root available demand.2 := by
  simp only [ModuleDecl.validate_eq_error_malformed_iff, foreign?_prepared, repeated?_prepared,
    demands_prepared, hforeign, hrepeated, true_and]
  constructor
  · rintro ⟨home, bean, target, -, hfound⟩
    obtain ⟨front, back, hsplit, hunmet, -⟩ := find?_demands_prepared.mp hfound
    exact ⟨(bean, target), by simp [hsplit], hunmet⟩
  · rintro ⟨demand, hdemand, hunmet⟩
    have hsome : (root.demands.find? fun demand =>
        !(preparedRoot options root available).declares demand.2).isSome := by
      refine List.find?_isSome.mpr ⟨demand, hdemand, ?_⟩
      rw [Bool.not_eq_true', ← Bool.not_eq_true, declares_prepared_iff, not_not]
      exact hunmet
    obtain ⟨⟨bean, target⟩, hfound⟩ := Option.isSome_iff_exists.mp hsome
    exact ⟨_, bean, target, rfl, hfound⟩

theorem mem_sockets_of_mem_nodes {resolved : Resolved} {socket : Socket}
    (h : resolve options (preparedRoot options root available) = .ok resolved)
    (hsocket : .socket socket ∈ resolved.graph.nodes) :
    socket ∈ root.sockets ∨ Offered options root available socket.name := by
  rw [graph_of_resolve h] at hsocket
  have hdeclared := Graph.mem_declarations_of_mem_nodes (Node.isHop_socket socket) hsocket
  simp only [List.mem_append, List.mem_map, reduceCtorEq, and_false, exists_false, false_or,
    Node.socket.injEq, exists_eq_right] at hdeclared
  refine (List.mem_append.mp hdeclared).imp_right fun hplaceholder => ?_
  obtain ⟨name, hname, rfl⟩ := List.mem_map.mp hplaceholder
  obtain ⟨-, hopen⟩ := List.mem_filter.mp ((distinctBy_sublist _ _).mem hname)
  simp only [ModuleDecl.leavesOpen, Bool.and_eq_true, bne_iff_ne, isProvidedBy_iff] at hopen
  exact offered_iff.mpr ⟨hopen.1.1, hopen.2⟩

/-- The root of a composition is refused for its own names exactly if it is on its own. If these are
sound, it is refused for a target exactly if some target is neither declared nor offered, and then
for the first such one. A target that is written in one way only has to be offered itself. A root
that is resolved is connected with nothing but what is offered. -/
theorem compose_refuses_root (options : Options) (root : ModuleDecl)
    (available : List ModuleDecl) :
    ∃ outcome, (compose options root available).root? = some outcome ∧ outcome.home = root.name ∧
      (∀ home name, outcome.result = .error (.resolve (.foreign home name)) ↔
        root.validate = .error (.foreign home name)) ∧
      (∀ home name, outcome.result = .error (.resolve (.duplicate home name)) ↔
        root.validate = .error (.duplicate home name)) ∧
      ((∀ home name, root.validate ≠ .error (.foreign home name) ∧
          root.validate ≠ .error (.duplicate home name)) →
        ((∃ home bean target,
            outcome.result = .error (.resolve (.malformed home bean target))) ↔
          ∃ demand ∈ root.demands, Unmet options root available demand.2)) ∧
      (∀ home bean target, outcome.result = .error (.resolve (.malformed home bean target)) →
        home = root.name ∧ ∃ front back, root.demands = front ++ (bean, target) :: back ∧
          Unmet options root available target ∧
            ∀ demand ∈ front, ¬ Unmet options root available demand.2) ∧
      (∀ demand ∈ root.demands, demand.2.IsPlain →
        (Unmet options root available demand.2 ↔
          root.declares demand.2 = false ∧ ¬ Offered options root available demand.2)) ∧
      ∀ resolved, outcome.result = .ok resolved → ∀ socket,
        .socket socket ∈ resolved.graph.nodes →
          socket ∈ root.sockets ∨ Offered options root available socket.name := by
  refine ⟨_, root?_compose, rfl, fun home name => ?_, fun home name => ?_, fun hsound => ?_,
    fun home bean target h => ?_, fun demand hdemand hplain => hplain.unmet_iff ?_,
    fun resolved hok socket => ?_⟩
  · rw [result_rootOutcome_eq_error_iff (by simp), ModuleDecl.validate_eq_error_foreign_iff,
      ModuleDecl.validate_eq_error_foreign_iff]
    rfl
  · rw [result_rootOutcome_eq_error_iff (by simp), ModuleDecl.validate_eq_error_duplicate_iff,
      ModuleDecl.validate_eq_error_duplicate_iff, foreign?_prepared, repeated?_prepared]
    rfl
  · obtain ⟨hforeign, hrepeated⟩ := ModuleDecl.sound_names_iff.mp hsound
    rw [← exists_malformed_prepared_iff hforeign hrepeated]
    refine exists_congr fun home => exists_congr fun bean => exists_congr fun target => ?_
    exact result_rootOutcome_eq_error_iff (by simp)
  · rw [result_rootOutcome_eq_error_iff (by simp), ModuleDecl.validate_eq_error_malformed_iff] at h
    obtain ⟨hhome, -, -, hfound⟩ := h
    exact ⟨hhome, find?_demands_prepared.mp hfound⟩
  · rw [← ModuleDecl.map_snd_demands]
    exact List.mem_map_of_mem hdemand
  · exact mem_sockets_of_mem_nodes (resolve_prepared_of_compose root?_compose hok)

/-- A component of a version that is not supported. -/
def newerPump : ModuleDecl where
  name := "d"
  version := 2
  beans := [{ name := ⟨"d", "p"⟩ }]

/-- A root that uses a component that fits, one that does not, and one that is missing. -/
def stranded : ModuleDecl where
  name := "app"
  beans := [
    { name := ⟨"app", "q"⟩ },
    { name := ⟨"app", "r"⟩
      dependencies := [⟨⟨"c", "p"⟩, "p", .direct⟩, ⟨⟨"d", "p"⟩, "p", .direct⟩,
        ⟨⟨"e", "z"⟩, "z", .direct⟩] }]
  imports := [pumpImport, { component := "d" }, { component := "e" }]

theorem compose_refuses_stranded :
    ∃ outcome, (compose {} stranded [pump, newerPump]).root? = some outcome ∧
      outcome.result = .error (.resolve (.malformed "app" ⟨"app", "r"⟩ ⟨"d", "p"⟩)) := by
  obtain ⟨outcome, hroot, -, -, -, hrefused, hfirst, hplain, -⟩ :=
    compose_refuses_root {} stranded [pump, newerPump]
  have hdemands : stranded.demands =
      [(⟨"app", "r"⟩, ⟨"c", "p"⟩), (⟨"app", "r"⟩, ⟨"d", "p"⟩), (⟨"app", "r"⟩, ⟨"e", "z"⟩)] := rfl
  have hmet : ¬ Unmet {} stranded [pump, newerPump] ⟨"c", "p"⟩ := by
    rw [hplain (⟨"app", "r"⟩, ⟨"c", "p"⟩) (by simp [hdemands]) (by constructor <;> decide)]
    rintro ⟨-, hnot⟩
    exact hnot ⟨⟨pumpImport, pump⟩, ⟨⟨List.mem_cons_self, rfl, rfl⟩, rfl, rfl⟩, rfl, by decide⟩
  have hunmet : Unmet {} stranded [pump, newerPump] ⟨"d", "p"⟩ := by
    rw [hplain (⟨"app", "r"⟩, ⟨"d", "p"⟩) (by simp [hdemands]) (by constructor <;> decide)]
    refine ⟨by decide, ?_⟩
    rintro ⟨plugged, ⟨hwired, hname, -⟩, hversion, -⟩
    have hfound := hwired.found
    rw [← hwired.name_eq, hname] at hfound
    have hnewer : newerPump = plugged.component := Option.some.inj hfound
    rw [← hnewer] at hversion
    exact absurd hversion (by decide)
  refine ⟨outcome, hroot, ?_⟩
  obtain ⟨home, bean, target, hresult⟩ :=
    (hrefused (ModuleDecl.sound_names_iff.mpr ⟨by decide, by decide⟩)).mpr
      ⟨(⟨"app", "r"⟩, ⟨"d", "p"⟩), by simp [hdemands], hunmet⟩
  obtain ⟨rfl, front, back, hsplit, htarget, hfront⟩ := hfirst _ _ _ hresult
  rw [hdemands] at hsplit
  match front with
  | [] =>
    obtain ⟨hfirst, -⟩ := List.cons.inj hsplit
    obtain ⟨-, rfl⟩ := Prod.mk.inj hfirst
    exact absurd htarget hmet
  | [_] =>
    obtain ⟨-, hrest⟩ := List.cons.inj hsplit
    obtain ⟨hsecond, -⟩ := List.cons.inj hrest
    obtain ⟨rfl, rfl⟩ := Prod.mk.inj hsecond
    exact hresult
  | _ :: second :: _ =>
    obtain ⟨-, hrest⟩ := List.cons.inj hsplit
    obtain ⟨rfl, -⟩ := List.cons.inj hrest
    exact absurd hunmet (hfront _ (List.mem_cons_of_mem _ List.mem_cons_self))

/-- A component with a bean whose written name can be cut in two places. -/
def colonPump : ModuleDecl where
  name := "a"
  beans := [{ name := ⟨"a", "b:c"⟩ }]

/-- A root that depends on that bean under both of its names. -/
def twofold : ModuleDecl where
  name := "app"
  beans := [
    { name := ⟨"app", "r"⟩
      dependencies := [⟨⟨"a", "b:c"⟩, "x", .direct⟩, ⟨⟨"a:b", "c"⟩, "y", .direct⟩] }]
  imports := [{ component := "a" }]

/-- A root need not be refused for a target that is neither declared nor offered itself. -/
theorem not_refused_for_each :
    ¬ ∀ (options : Options) (root : ModuleDecl) (available : List ModuleDecl) (outcome : Outcome),
      (compose options root available).root? = some outcome →
      (∀ home name, root.validate ≠ .error (.foreign home name) ∧
        root.validate ≠ .error (.duplicate home name)) →
      ((∃ home bean target, outcome.result = .error (.resolve (.malformed home bean target))) ↔
        ∃ demand ∈ root.demands, root.declares demand.2 = false ∧
          ¬ Offered options root available demand.2) := by
  intro hall
  have horder : (compose { generateDescriptor := false } twofold [colonPump]).rootOrder? =
      some ["a:b:c", "app:r"] := by cbv
  obtain ⟨outcome, resolved, hroot, hok, -⟩ := rootOrder?_eq_some_iff.mp horder
  have hiff := hall _ _ _ outcome hroot (ModuleDecl.sound_names_iff.mpr ⟨by decide, by decide⟩)
  obtain ⟨home, bean, target, herror⟩ := hiff.mpr
    ⟨(⟨"app", "r"⟩, ⟨"a:b", "c"⟩), List.mem_cons_of_mem _ List.mem_cons_self, by decide, by
      rintro ⟨plugged, ⟨hwired, hname, -⟩, -, -⟩
      have hfound := hwired.found
      rw [← hwired.name_eq, hname] at hfound
      cases hfound⟩
  rw [hok] at herror
  cases herror

end Injection
