import Injection.Proofs.Acyclic
import Injection.Proofs.Name

/-!
# The order of declarations

Whether a module is valid, and if not, of which kind its first fault is, does not depend on the
order in which beans, sockets and dependencies are declared. The links of its graph depend on it in
one way: of the members that are written alike the first decides what their hop leads to. If it
makes no difference which of them is the first, the order of declarations does not decide whether
the module is resolved.

## Main definitions

* `ModuleDecl.Reordered` — whether a module is another one with its declarations in another order.
* `SameVerdict` — whether two computations succeed, or fail with faults of one code.
* `ModuleDecl.Unambiguous` — whether members that are written alike are members of the same thing.

Members can be written alike only if some segment of a path contains a dot.
-/

namespace Injection

open Relation

/-! ## Declarations in another order -/

/-- A bean with its dependencies in another order. -/
def Bean.Reordered (bean bean' : Bean) : Prop :=
  ∃ dependencies, bean.dependencies.Perm dependencies ∧ bean' = { bean with dependencies }

namespace ModuleDecl

/-- A module with its beans, its sockets and the dependencies of each bean in another order. -/
structure Reordered (m m' : ModuleDecl) : Prop where
  beans : ∃ permuted, m.beans.Perm permuted ∧ List.Forall₂ Bean.Reordered permuted m'.beans
  sockets : m.sockets.Perm m'.sockets
  rest : m' = { m with beans := m'.beans, sockets := m'.sockets }

namespace Reordered

variable {m m' : ModuleDecl} (h : m.Reordered m')

include h

theorem name_eq : m'.name = m.name := by
  rw [h.rest]

theorem names_perm : (m.beans.map (·.name)).Perm (m'.beans.map (·.name)) := by
  obtain ⟨permuted, hperm, hbeans⟩ := h.beans
  refine (hperm.map _).trans (List.Perm.of_eq ?_)
  clear hperm
  generalize m'.beans = beans at hbeans
  induction hbeans with
  | nil => rfl
  | cons hbean _ ih =>
    obtain ⟨_, -, rfl⟩ := hbean
    exact congrArg (_ :: ·) ih

theorem declared_perm : m.declared.Perm m'.declared := by
  simp only [declared, declaredNames]
  exact (h.names_perm.append (h.sockets.map _)).map _

theorem uses_perm : m.uses.Perm m'.uses := by
  obtain ⟨permuted, hperm, hbeans⟩ := h.beans
  refine (hperm.flatMap_right _).trans ?_
  rw [uses]
  clear hperm
  generalize m'.beans = beans at hbeans
  induction hbeans with
  | nil => exact .nil
  | cons hbean _ ih =>
    obtain ⟨_, hdependencies, rfl⟩ := hbean
    rw [List.flatMap_cons, List.flatMap_cons]
    exact (hdependencies.map _).append ih

theorem members_perm : m.members.Perm m'.members := h.uses_perm.flatMap_right _

theorem mem_declared_iff {name : String} : name ∈ m.declared ↔ name ∈ m'.declared :=
  h.declared_perm.mem_iff

theorem closed_iff : m.Closed ↔ m'.Closed := by
  simp only [Closed, h.mem_declared_iff, h.uses_perm.mem_iff]

end Reordered

end ModuleDecl

/-! ## Kinds of faults -/

/-- Whether two computations both succeed, or fail with faults of the same code. -/
def SameVerdict {α : Type} (result result' : Except ModuleFault α) : Prop :=
  ((∃ a, result = .ok a) ↔ ∃ a', result' = .ok a') ∧
    ∀ fault fault', result = .error fault → result' = .error fault' → fault.code = fault'.code

/-- The code of the fault, if there is one. -/
def faultCode? {α : Type} : Except ModuleFault α → Option FaultCode
  | .ok _ => none
  | .error fault => some fault.code

section FaultCode

variable {options : Options} {m m' : ModuleDecl}

theorem sameVerdict_iff {α : Type} {result result' : Except ModuleFault α} :
    SameVerdict result result' ↔ faultCode? result = faultCode? result' := by
  cases result <;> cases result' <;> simp [SameVerdict, faultCode?]

/-- Foreign beans come before repeated names, and these before undeclared targets. -/
theorem faultCode?_validate (m : ModuleDecl) : faultCode? m.validate =
    if m.foreign?.isSome then some .malformedDeclaration
    else if m.repeated?.isSome then some .duplicateDeclaration
    else if m.dangling?.isSome then some .malformedDeclaration
    else none := by
  rw [ModuleDecl.validate]
  cases m.foreign? <;> cases m.repeated? <;> cases m.dangling? <;> rfl

theorem faultCode?_resolve (options : Options) (m : ModuleDecl) :
    faultCode? (resolve options m) = (faultCode? m.validate).or
      (if (Graph.build m).cycles.isEmpty then none else some .cycleDetected) := by
  cases hv : m.validate with
  | error fault => simp [resolve_eq_error_of_validate hv, faultCode?]
  | ok _ =>
    by_cases hc : (Graph.build m).cycles = []
    · obtain ⟨resolved, hr⟩ : ∃ resolved, resolve options m = .ok resolved :=
        exists_resolve_eq_ok hv hc
      simp [hr, hc, faultCode?]
    · simp [resolve_eq_error_of_cycles hv hc, hc, faultCode?, ModuleFault.code]

/-- The kind of a fault of validation does not depend on the order of declarations. -/
theorem ModuleDecl.Reordered.faultCode?_validate_eq (h : m.Reordered m') :
    faultCode? m.validate = faultCode? m'.validate := by
  have hsome : ∀ {α : Type} {o o' : Option α}, (o = none ↔ o' = none) → o.isSome = o'.isSome := by
    intro α o o' hiff
    rw [Bool.eq_iff_iff, Option.isSome_iff_ne_none, Option.isSome_iff_ne_none, Ne, Ne, hiff]
  have hforeign : m.foreign? = none ↔ m'.foreign? = none := by
    have hnames : ∀ {m : ModuleDecl}, (∀ bean ∈ m.beans, bean.name.modulePart = m.name) ↔
        ∀ name ∈ m.beans.map (·.name), name.modulePart = m.name := by simp
    rw [ModuleDecl.foreign?_eq_none_iff, ModuleDecl.foreign?_eq_none_iff, hnames, hnames, h.name_eq]
    simp only [h.names_perm.mem_iff]
  have hrepeated : m.repeated? = none ↔ m'.repeated? = none := by
    rw [ModuleDecl.repeated?_eq_none_iff, ModuleDecl.repeated?_eq_none_iff,
      h.declared_perm.nodup_iff]
  have hdangling : m.dangling? = none ↔ m'.dangling? = none := by
    rw [ModuleDecl.dangling?_eq_none_iff, ModuleDecl.dangling?_eq_none_iff, h.closed_iff]
  rw [faultCode?_validate, faultCode?_validate, hsome hforeign, hsome hrepeated, hsome hdangling]

/-! ## Cycles -/

/-- If the hops lead to the same names, a valid module has cycles in either order. -/
theorem ModuleDecl.Reordered.cycles_eq_nil_iff (h : m.Reordered m') (hm : m.Closed)
    (hhops : ∀ a b, m.HopsTo a b ↔ m'.HopsTo a b) :
    (Graph.build m).cycles = [] ↔ (Graph.build m').cycles = [] := by
  have hleads : (Graph.build m).Leads = (Graph.build m').Leads := by
    funext a b
    rw [hm.leads_iff, (h.closed_iff.mp hm).leads_iff, hhops]
    simp only [h.uses_perm.mem_iff]
  rw [← not_iff_not, ← Ne, ← Ne, (Graph.sound_build m).cycles_ne_nil_iff,
    (Graph.sound_build m').cycles_ne_nil_iff, hleads]

theorem ModuleDecl.Reordered.faultCode?_resolve_eq (h : m.Reordered m')
    (hhops : ∀ a b, m.HopsTo a b ↔ m'.HopsTo a b) (options : Options) :
    faultCode? (resolve options m) = faultCode? (resolve options m') := by
  rw [faultCode?_resolve, faultCode?_resolve, ← h.faultCode?_validate_eq]
  cases hv : m.validate with
  | error fault => simp [faultCode?]
  | ok _ =>
    have hm : m.Closed := (ModuleDecl.validate_eq_ok_iff.mp hv).2.2
    simp only [List.isEmpty_iff, h.cycles_eq_nil_iff hm hhops]

end FaultCode

/-! ## Members that are written alike -/

namespace ModuleDecl

variable {m m' : ModuleDecl} {a b : String}

/-- Members that are written alike, under a name that is not declared, are members of the same
thing. -/
def Unambiguous (m : ModuleDecl) : Prop :=
  ∀ x ∈ m.members, ∀ y ∈ m.members, x.name ∉ m.declared → x.name = y.name → x.parent = y.parent

/-- In an unambiguous module a hop leads to what any member of its name is a member of. -/
theorem Unambiguous.hopsTo_iff (hm : m.Unambiguous) :
    m.HopsTo a b ↔ ∃ x ∈ m.members, x.name ∉ m.declared ∧ x.name = a ∧ x.parent = b := by
  constructor
  · rintro ⟨hop, hhop, rfl, rfl⟩
    refine ⟨hop, (keepFirst_sublist _ _ _).mem hhop, ?_, rfl, rfl⟩
    exact keyOf_notMem_of_mem_keepFirst _ hhop
  · rintro ⟨x, hx, hnew, rfl, rfl⟩
    have hkept : x.name ∈ m.hops.map Member.name :=
      (mem_map_keepFirst _).mpr ⟨List.mem_map_of_mem hx, hnew⟩
    obtain ⟨hop, hhop, hname⟩ := List.mem_map.mp hkept
    have hmember : hop ∈ m.members := (keepFirst_sublist _ _ _).mem hhop
    exact ⟨hop, hhop, hname, (hm x hx hop hmember hnew hname.symm).symm⟩

theorem Reordered.unambiguous (h : m.Reordered m') (hm : m.Unambiguous) : m'.Unambiguous := by
  simpa only [Unambiguous, h.mem_declared_iff, h.members_perm.mem_iff] using hm

theorem Reordered.hopsTo_iff (h : m.Reordered m') (hm : m.Unambiguous) (a b : String) :
    m.HopsTo a b ↔ m'.HopsTo a b := by
  rw [hm.hopsTo_iff, (h.unambiguous hm).hopsTo_iff]
  simp only [h.mem_declared_iff, h.members_perm.mem_iff]

theorem segment_mem_of_mem_along {owner : QualifiedName} {walked rest : List String} {x : Member}
    (h : x ∈ Member.along owner walked rest) : x.segment ∈ rest := by
  induction rest generalizing walked with
  | nil => cases h
  | cons segment rest ih =>
    rcases List.mem_cons.mp h with rfl | h
    · exact List.mem_cons_self
    · exact List.mem_cons_of_mem _ (ih h)

/-- The last dot of a member's name stands before its segment, if that has none. -/
theorem parent_eq_of_name_eq {x y : Member} (hx : '.' ∉ x.segment.toList)
    (hy : '.' ∉ y.segment.toList) (h : x.name = y.name) : x.parent = y.parent := by
  have hreversed : ∀ z : Member, z.name.toList.reverse =
      z.segment.toList.reverse ++ '.' :: z.parent.toList.reverse := by
    intro z
    simp [Member.name_eq]
  have hchars := congrArg (fun name => name.toList.reverse) h
  simp only [hreversed] at hchars
  obtain ⟨-, hparent⟩ := eq_of_append_cons_self_eq (by simpa using hx) (by simpa using hy) hchars
  exact String.toList_inj.mp (List.reverse_inj.mp hparent)

/-- Members are written alike only if some segment contains a dot. -/
theorem unambiguous_of_forall_notMem
    (h : ∀ use ∈ m.uses, ∀ segment ∈ use.2.path, '.' ∉ segment.toList) : m.Unambiguous := by
  have hsegment : ∀ x ∈ m.members, '.' ∉ x.segment.toList := by
    intro x hx
    obtain ⟨use, huse, hx⟩ := List.mem_flatMap.mp hx
    exact h use huse _ (segment_mem_of_mem_along hx)
  intro x hx y hy _ hname
  exact parent_eq_of_name_eq (hsegment x hx) (hsegment y hy) hname

end ModuleDecl

/-! ## Verdicts -/

/-- Whether validation accepts a module, and else the kind of its first fault, does not depend on
the order of declarations. Nor does it depend on that order whether the module is resolved, and else
the kind of fault, if the hops of both orders lead to the same names. They do if members that are
written alike are members of the same thing, and so if no segment of a path contains a dot. -/
theorem resolve_reordered (options : Options) {m m' : ModuleDecl} (h : m.Reordered m') :
    SameVerdict m.validate m'.validate ∧
    ((∀ a b, m.HopsTo a b ↔ m'.HopsTo a b) →
      SameVerdict (resolve options m) (resolve options m')) ∧
    (m.Unambiguous → SameVerdict (resolve options m) (resolve options m')) ∧
    ((∀ bean ∈ m.beans, ∀ dependency ∈ bean.dependencies, ∀ segment ∈ dependency.path,
        '.' ∉ segment.toList) → SameVerdict (resolve options m) (resolve options m')) := by
  simp only [sameVerdict_iff]
  have hunambiguous : m.Unambiguous →
      faultCode? (resolve options m) = faultCode? (resolve options m') := fun hm =>
    h.faultCode?_resolve_eq (h.hopsTo_iff hm) options
  refine ⟨h.faultCode?_validate_eq, fun hhops => h.faultCode?_resolve_eq hhops options,
    hunambiguous, fun hdots => hunambiguous ?_⟩
  refine ModuleDecl.unambiguous_of_forall_notMem ?_
  rintro ⟨source, dependency⟩ huse
  obtain ⟨bean, hb, hd, -⟩ := ModuleDecl.mem_uses_iff.mp huse
  exact hdots bean hb dependency hd

/-- The beans of `navigating` the other way round. -/
def navigatingReversed : ModuleDecl where
  name := "m"
  beans := [
    { name := ⟨"m", "t"⟩ },
    { name := ⟨"m", "b"⟩, dependencies := [⟨⟨"m", "t"⟩, "x", .nested ["x"]⟩] }]

theorem resolve_reordered_navigating :
    navigating.Reordered navigatingReversed ∧
      SameVerdict (resolve {} navigating) (resolve {} navigatingReversed) := by
  have hbean : ∀ bean : Bean, bean.Reordered bean := fun bean => ⟨_, .refl _, rfl⟩
  have h : navigating.Reordered navigatingReversed :=
    ⟨⟨_, .swap _ _ _, .cons (hbean _) (.cons (hbean _) .nil)⟩, .refl _, rfl⟩
  exact ⟨h, (resolve_reordered {} h).2.2.2 (by decide)⟩

/-- Two members that are written alike: `a.b` of one bean, and `b` of another, which needs what the
first of the two is injected into. -/
def overlapping : ModuleDecl where
  name := "m"
  beans := [
    { name := ⟨"m", "p"⟩, dependencies := [⟨⟨"m", "t"⟩, "x", .nested ["a.b"]⟩] },
    { name := ⟨"m", "q"⟩, dependencies := [⟨⟨"m", "t.a"⟩, "y", .nested ["b"]⟩] },
    { name := ⟨"m", "t"⟩ },
    { name := ⟨"m", "t.a"⟩, dependencies := [⟨⟨"m", "p"⟩, "p", .direct⟩] }]

/-- The beans of `overlapping` with the first two in the other order. -/
def overlappingSwapped : ModuleDecl where
  name := "m"
  beans := [
    { name := ⟨"m", "q"⟩, dependencies := [⟨⟨"m", "t.a"⟩, "y", .nested ["b"]⟩] },
    { name := ⟨"m", "p"⟩, dependencies := [⟨⟨"m", "t"⟩, "x", .nested ["a.b"]⟩] },
    { name := ⟨"m", "t"⟩ },
    { name := ⟨"m", "t.a"⟩, dependencies := [⟨⟨"m", "p"⟩, "p", .direct⟩] }]

/-- The order of declarations can decide whether a module is resolved. -/
theorem not_resolve_invariant :
    ¬ ∀ (options : Options) (m m' : ModuleDecl), m.Reordered m' →
      SameVerdict (resolve options m) (resolve options m') := by
  intro hall
  have hbean : ∀ bean : Bean, bean.Reordered bean := fun bean => ⟨_, .refl _, rfl⟩
  have h : overlapping.Reordered overlappingSwapped :=
    ⟨⟨_, .swap _ _ _, .cons (hbean _) (.cons (hbean _) (.cons (hbean _) (.cons (hbean _) .nil)))⟩,
      .refl _, rfl⟩
  obtain ⟨hiff, -⟩ := hall {} _ _ h
  rw [exists_resolve_iff, exists_resolve_iff] at hiff
  have hvalid : overlapping.validate = .ok () := by cbv
  have hsome : (Graph.build overlapping).schedule? ≠ none := by decide
  have hnone : (Graph.build overlappingSwapped).schedule? = none := by cbv
  have hcycles := hiff.mp ⟨hvalid, (Graph.sound_build overlapping).schedule?_ne_none_iff.mp hsome⟩
  exact (Graph.sound_build overlappingSwapped).schedule?_ne_none_iff.mpr hcycles.2 hnone

end Injection
