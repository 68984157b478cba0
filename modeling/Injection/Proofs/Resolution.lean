import Injection.Proofs.Cycles
import Injection.Proofs.Emission
import Injection.Proofs.Validation
import Injection.Resolution
import Mathlib

/-!
# The order of a resolved module

Which of two names comes first in the order of a resolved module, and what that means for the
beans and the targets of their dependencies.

## Main definitions

* `Resolved.written` — the order by written names.
-/

namespace Injection

open Relation

/-! ## Names and numbers -/

namespace Graph

variable {g : Graph} {i j : Nat} {a b : String}

theorem mem_written_iff : a ∈ g.written ↔ ∃ i < g.order, (g.nameAt i).rendered = a := by
  rw [List.mem_iff_getElem?]
  constructor
  · rintro ⟨i, hi⟩
    have hlt : i < g.order := by simpa using (List.getElem?_eq_some_iff.mp hi).1
    exact ⟨i, hlt, Option.some.inj ((getElem?_written hlt).symm.trans hi)⟩
  · rintro ⟨i, hi, rfl⟩
    exact ⟨i, getElem?_written hi⟩

theorem written_eq (g : Graph) :
    g.written = (List.range g.order).map fun i => (g.nameAt i).rendered := by
  apply List.ext_getElem?
  intro i
  by_cases hi : i < g.order
  · rw [getElem?_written hi, List.getElem?_map, List.getElem?_range hi]
    rfl
  · simp [hi]

namespace Sound

variable (hs : g.Sound)

include hs

theorem leads_iff (hi : i < g.order) :
    g.Leads (g.nameAt i).rendered b ↔
      ∃ j, Adjacent g.edges i j ∧ (g.nameAt j).rendered = b := by
  rw [Leads, links_eq]
  constructor
  · rintro ⟨link, hlink, hsource, rfl⟩
    obtain ⟨e, he, rfl⟩ := List.mem_map.mp hlink
    have := hs.rendered_nameAt_inj (hs.source_lt e he) hi hsource
    exact ⟨e.target, ⟨e, he, this, rfl⟩, rfl⟩
  · rintro ⟨j, ⟨e, he, rfl, rfl⟩, rfl⟩
    exact ⟨g.linkOf e, List.mem_map_of_mem he, rfl, rfl⟩

theorem lt_of_adjacent (h : Adjacent g.edges i j) : j < g.order := by
  obtain ⟨e, he, -, rfl⟩ := h
  exact hs.target_lt e he

theorem lt_of_reflTransGen (hi : i < g.order) (h : ReflTransGen (Adjacent g.edges) i j) :
    j < g.order := by
  rcases h.cases_tail with rfl | ⟨_, -, hadj⟩
  · exact hi
  · exact hs.lt_of_adjacent hadj

theorem reflTransGen_leads_iff (hi : i < g.order) :
    ReflTransGen g.Leads (g.nameAt i).rendered b ↔
      ∃ j, ReflTransGen (Adjacent g.edges) i j ∧ (g.nameAt j).rendered = b := by
  constructor
  · intro h
    induction h with
    | refl => exact ⟨i, .refl, rfl⟩
    | tail _ hstep ih =>
      obtain ⟨j, hij, rfl⟩ := ih
      obtain ⟨k, hjk, rfl⟩ := (hs.leads_iff (hs.lt_of_reflTransGen hi hij)).mp hstep
      exact ⟨k, hij.tail hjk, rfl⟩
  · rintro ⟨j, hij, rfl⟩
    induction hij with
    | refl => exact .refl
    | tail hij hadj ih =>
      obtain ⟨e, he, rfl, rfl⟩ := hadj
      exact ih.tail ((hs.leads_iff (hs.source_lt e he)).mpr ⟨_, ⟨e, he, rfl, rfl⟩, rfl⟩)

theorem transGen_leads_iff (hi : i < g.order) :
    TransGen g.Leads (g.nameAt i).rendered b ↔ ∃ j, g.Reaches i j ∧ (g.nameAt j).rendered = b := by
  rw [TransGen.head'_iff]
  constructor
  · rintro ⟨c, hac, hcb⟩
    obtain ⟨j, hij, rfl⟩ := (hs.leads_iff hi).mp hac
    obtain ⟨k, hjk, rfl⟩ := (hs.reflTransGen_leads_iff (hs.lt_of_adjacent hij)).mp hcb
    exact ⟨k, .head' hij hjk, rfl⟩
  · rintro ⟨k, hik, rfl⟩
    obtain ⟨j, hij, hjk⟩ := TransGen.head'_iff.mp hik
    refine ⟨_, (hs.leads_iff hi).mpr ⟨j, hij, rfl⟩, ?_⟩
    exact (hs.reflTransGen_leads_iff (hs.lt_of_adjacent hij)).mpr ⟨k, hjk, rfl⟩

theorem before_written_iff (hi : i < g.order) (hj : j < g.order) :
    Before g.written (g.nameAt i).rendered (g.nameAt j).rendered ↔ i < j := by
  have hascending : ∀ {a b : Nat}, Before (List.range g.order) a b → a < b :=
    List.pairwise_iff_forall_sublist.mp List.pairwise_lt_range
  have hnodup := hs.distinct
  rw [written_eq] at hnodup ⊢
  have hi' := List.mem_range.mpr hi
  have hj' := List.mem_range.mpr hj
  refine (before_map_iff hnodup hi' hj').trans ⟨hascending, fun hij => ?_⟩
  exact (before_or_before hi' hj' hij.ne).resolve_right fun h => by
    have := hascending h
    omega

/-- There are cycles exactly if some name leads back to itself. -/
theorem cycles_ne_nil_iff : g.cycles ≠ [] ↔ ∃ a, TransGen g.Leads a a := by
  rw [Ne, hs.cycles_eq_nil_iff]
  push Not
  constructor
  · rintro ⟨i, hi⟩
    obtain ⟨j, ⟨e, he, rfl, -⟩, -⟩ := TransGen.head'_iff.mp hi
    exact ⟨_, (hs.transGen_leads_iff (hs.source_lt e he)).mpr ⟨_, hi, rfl⟩⟩
  · rintro ⟨a, ha⟩
    obtain ⟨b, ⟨link, hlink, rfl, -⟩, -⟩ := TransGen.head'_iff.mp ha
    rw [links_eq] at hlink
    obtain ⟨e, he, rfl⟩ := List.mem_map.mp hlink
    have hlt := hs.source_lt e he
    obtain ⟨j, hij, hj⟩ := (hs.transGen_leads_iff hlt).mp ha
    obtain rfl := hs.rendered_nameAt_inj (hs.lt_of_reflTransGen hlt hij.to_reflTransGen) hlt hj
    exact ⟨_, hij⟩

end Sound

end Graph

/-! ## Resolved modules -/

namespace Resolved

/-- The names of all nodes, as they are written, in the order in which they come into being. -/
def written (resolved : Resolved) : List String :=
  resolved.orderNames.map QualifiedName.rendered

def writtenBeans (resolved : Resolved) : List String :=
  resolved.instantiation.map (·.name.rendered)

end Resolved

section Resolve

variable {options : Options} {m : ModuleDecl} {resolved : Resolved} {a b : String}

/-- A module is resolved exactly if it is valid, has no cycles and can be ordered. -/
theorem resolve_eq_ok_iff :
    resolve options m = .ok resolved ↔
      m.validate = .ok () ∧ (Graph.build m).cycles = [] ∧
        ∃ order, (Graph.build m).schedule? = some order ∧
          resolved = ⟨m.version, Graph.build m, order,
            if options.generateDescriptor then some (.describe m.version (Graph.build m) order)
            else none⟩ := by
  unfold resolve
  cases hv : m.validate with
  | error fault => simp [bind, Except.bind]
  | ok _ =>
    cases hc : (Graph.build m).cycles with
    | cons c cs => simp [bind, Except.bind, hc]
    | nil =>
      cases ho : (Graph.build m).schedule? with
      | none => simp [bind, Except.bind, hc, ho]
      | some order =>
        simp only [bind, Except.bind, hc, List.isEmpty_nil, Bool.not_true, Bool.false_eq_true,
          if_false, ho, pure, Except.pure, Except.ok.injEq, Option.some.injEq, true_and,
          exists_eq_left']
        exact eq_comm

/-- Whether a module is resolved with this descriptor, under some options. -/
def ModuleDecl.HasDescriptor (m : ModuleDecl) (descriptor : Descriptor) : Prop :=
  ∃ options resolved, resolve options m = .ok resolved ∧ resolved.descriptor? = some descriptor

theorem hasDescriptor_iff {descriptor : Descriptor} :
    m.HasDescriptor descriptor ↔
      m.validate = .ok () ∧ (Graph.build m).cycles = [] ∧
        ∃ order, (Graph.build m).schedule? = some order ∧
          descriptor = .describe m.version (Graph.build m) order := by
  simp only [ModuleDecl.HasDescriptor, resolve_eq_ok_iff]
  constructor
  · rintro ⟨options, resolved, ⟨hvalid, hnil, order, horder, rfl⟩, hd⟩
    refine ⟨hvalid, hnil, order, horder, ?_⟩
    dsimp only at hd
    split at hd
    · exact (Option.some.inj hd).symm
    · cases hd
  · rintro ⟨hvalid, hnil, order, horder, rfl⟩
    exact ⟨{}, _, ⟨hvalid, hnil, order, horder, rfl⟩, rfl⟩

theorem ModuleDecl.HasDescriptor.closed {descriptor : Descriptor}
    (h : m.HasDescriptor descriptor) : m.Closed :=
  (ModuleDecl.validate_eq_ok_iff.mp (hasDescriptor_iff.mp h).1).2.2

variable (h : resolve options m = .ok resolved)

include h

theorem graph_of_resolve : resolved.graph = Graph.build m := by
  obtain ⟨-, -, order, -, rfl⟩ := resolve_eq_ok_iff.mp h
  rfl

theorem schedule?_of_resolve : (Graph.build m).schedule? = some resolved.order := by
  obtain ⟨-, -, order, horder, rfl⟩ := resolve_eq_ok_iff.mp h
  exact horder

theorem closed_of_resolve : m.Closed :=
  (ModuleDecl.validate_eq_ok_iff.mp (resolve_eq_ok_iff.mp h).1).2.2

theorem nodup_declared_of_resolve : m.declared.Nodup :=
  (ModuleDecl.validate_eq_ok_iff.mp (resolve_eq_ok_iff.mp h).1).2.1

theorem written_of_resolve :
    resolved.written = resolved.order.map fun i => ((Graph.build m).nameAt i).rendered := by
  rw [Resolved.written, Resolved.orderNames, graph_of_resolve h, List.map_map]
  rfl

theorem mem_order_of_resolve {i : Nat} : i ∈ resolved.order ↔ i < (Graph.build m).order := by
  have hperm := (Graph.sound_build m).perm_of_schedule? (schedule?_of_resolve h)
  rw [hperm.mem_iff, List.mem_range]

theorem perm_of_resolve : resolved.written.Perm (Graph.build m).written := by
  rw [written_of_resolve h, Graph.written_eq]
  exact ((Graph.sound_build m).perm_of_schedule? (schedule?_of_resolve h)).map _

theorem nodup_written_of_resolve : resolved.written.Nodup :=
  (perm_of_resolve h).nodup_iff.mpr (Graph.sound_build m).distinct

theorem before_written_of_resolve {i j : Nat} (hi : i < (Graph.build m).order)
    (hj : j < (Graph.build m).order) :
    Before resolved.written ((Graph.build m).nameAt i).rendered
      ((Graph.build m).nameAt j).rendered ↔ Before resolved.order i j := by
  have hnodup := nodup_written_of_resolve h
  rw [written_of_resolve h] at hnodup ⊢
  exact before_map_iff hnodup ((mem_order_of_resolve h).mpr hi) ((mem_order_of_resolve h).mpr hj)

/-- A name comes behind all that it leads to. -/
theorem before_of_leads (hab : TransGen (Graph.build m).Leads a b) :
    Before resolved.written b a := by
  have hs := Graph.sound_build m
  obtain ⟨c, ⟨link, hlink, rfl, -⟩, -⟩ := TransGen.head'_iff.mp hab
  rw [Graph.links_eq] at hlink
  obtain ⟨e, he, rfl⟩ := List.mem_map.mp hlink
  have hlt := hs.source_lt e he
  obtain ⟨j, hij, rfl⟩ := (hs.transGen_leads_iff hlt).mp hab
  have hbefore := hs.before_of_reaches (schedule?_of_resolve h)
    ((mem_order_of_resolve h).mpr hlt) hij
  have hj := (mem_order_of_resolve h).mp hbefore.left_mem
  exact (before_written_of_resolve h hj hlt).mpr hbefore

/-- A name comes before a declared one exactly if each name that it leads to is declared before
that one, or comes no later than something that that one leads to. -/
theorem before_iff_of_resolve (ha : a ∈ (Graph.build m).written) (hb : b ∈ m.declared) :
    Before resolved.written a b ↔ ∀ x, ReflTransGen (Graph.build m).Leads a x →
      Before m.declared x b ∨
        ∃ y, (Graph.build m).Leads b y ∧ (x = y ∨ Before resolved.written x y) := by
  have hs := Graph.sound_build m
  have hnumbered : ∀ x, Before m.declared x b ↔ Before (Graph.build m).written x b := by
    intro x
    have hdistinct := hs.distinct
    rw [(closed_of_resolve h).written_eq (nodup_declared_of_resolve h)] at hdistinct ⊢
    exact (before_append_iff hdistinct hb).symm
  replace hb := (closed_of_resolve h).mem_written_iff.mpr (.inl hb)
  simp only [hnumbered]
  obtain ⟨i, hi, rfl⟩ := Graph.mem_written_iff.mp ha
  obtain ⟨j, hj, rfl⟩ := Graph.mem_written_iff.mp hb
  rw [before_written_of_resolve h hi hj, hs.before_iff (schedule?_of_resolve h)
    ((mem_order_of_resolve h).mpr hi) ((mem_order_of_resolve h).mpr hj)]
  constructor
  · intro hcond x hx
    obtain ⟨k, hik, rfl⟩ := (hs.reflTransGen_leads_iff hi).mp hx
    have hk := hs.lt_of_reflTransGen hi hik
    obtain hlt | ⟨y, hjy, hky⟩ := hcond k hik
    · exact .inl ((hs.before_written_iff hk hj).mpr hlt)
    · refine .inr ⟨_, (hs.leads_iff hj).mpr ⟨y, hjy, rfl⟩, ?_⟩
      refine hky.imp (congrArg fun i => ((Graph.build m).nameAt i).rendered) fun hbefore => ?_
      exact (before_written_of_resolve h hk (hs.lt_of_adjacent hjy)).mpr hbefore
  · intro hcond k hik
    have hk := hs.lt_of_reflTransGen hi hik
    obtain hlt | ⟨y, hjy, hky⟩ := hcond _ ((hs.reflTransGen_leads_iff hi).mpr ⟨k, hik, rfl⟩)
    · exact .inl ((hs.before_written_iff hk hj).mp hlt)
    · obtain ⟨y, hadj, rfl⟩ := (hs.leads_iff hj).mp hjy
      have hy := hs.lt_of_adjacent hadj
      refine .inr ⟨y, hadj, hky.imp (hs.rendered_nameAt_inj hk hy) fun hbefore => ?_⟩
      exact (before_written_of_resolve h hk hy).mp hbefore

/-- Beans stand in the order of instantiation as in the order of all nodes. -/
theorem before_writtenBeans_of_resolve (ha : a ∈ m.beans.map (·.name.rendered))
    (hb : b ∈ m.beans.map (·.name.rendered)) (hab : Before resolved.written a b) :
    Before resolved.writtenBeans a b := by
  have hs := Graph.sound_build m
  let writtenBean? (i : Nat) : Option String :=
    ((Graph.build m).nodes[i]?.bind Node.bean?).map (·.name.rendered)
  have hbean : ∀ {name : String}, name ∈ m.beans.map (·.name.rendered) →
      ∃ i < (Graph.build m).order, ((Graph.build m).nameAt i).rendered = name ∧
        writtenBean? i = some name := by
    intro name hname
    obtain ⟨bean, hmem, rfl⟩ := List.mem_map.mp hname
    obtain ⟨i, b, hi, hnode⟩ := Graph.hasBean_build hmem
    have hrendered := hs.rendered_nameAt hi
    have hb : (Graph.build m).nameAt i = b.name := by simp [Graph.nameAt, hnode, Node.name]
    refine ⟨i, hs.lt_of_indexOf? hi, hrendered, ?_⟩
    simp [writtenBean?, hnode, Node.bean?, ← hrendered, hb]
  obtain ⟨i, hi, rfl, hi'⟩ := hbean ha
  obtain ⟨j, hj, rfl, hj'⟩ := hbean hb
  have hbeans : resolved.writtenBeans = resolved.order.filterMap writtenBean? := by
    rw [Resolved.writtenBeans, Resolved.instantiation, graph_of_resolve h, Graph.beansOf,
      List.map_filterMap]
  have hsub := List.Sublist.filterMap writtenBean? ((before_written_of_resolve h hi hj).mp hab)
  rw [Before, hbeans]
  simpa [List.filterMap_cons, hi', hj'] using hsub

end Resolve

/-! ## Targets of dependencies -/

/-- The chain of a dependency ends at one declared name, and the bean comes behind that one, in the
order of all nodes and in that of the beans. So it comes behind the target if the chain ends there.
If the chain ends elsewhere, the target is before the bean exactly if each name that it leads to is
declared before the bean, or comes no later than something that the bean leads to. -/
theorem resolve_orders_dependency {options : Options} {m : ModuleDecl} {resolved : Resolved}
    (h : resolve options m = .ok resolved) {bean : Bean} (hb : bean ∈ m.beans)
    {dependency : Dependency} (hd : dependency ∈ bean.dependencies) :
    let user := bean.name.rendered
    let target := dependency.target.rendered
    (∃ e ∈ m.declared, m.LeadsTo dependency.reference e ∧
      (∀ e' ∈ m.declared, m.LeadsTo dependency.reference e' → e' = e) ∧
      Before resolved.written e user) ∧
    (m.LeadsTo dependency.reference target →
      Before resolved.written target user ∧
        (target ∈ m.beans.map (·.name.rendered) → Before resolved.writtenBeans target user)) ∧
    (¬ m.LeadsTo dependency.reference target →
      (Before resolved.written target user ↔
        ∀ x, ReflTransGen (Graph.build m).Leads target x →
          Before m.declared x user ∨
            ∃ y, (Graph.build m).Leads user y ∧ (x = y ∨ Before resolved.written x y))) := by
  intro user target
  have hm := closed_of_resolve h
  have hu : (user, dependency) ∈ m.uses := ModuleDecl.mem_uses_iff.mpr ⟨bean, hb, hd, rfl⟩
  have hbefore : ∀ e, m.LeadsTo dependency.reference e → Before resolved.written e user := by
    intro e he
    have hfirst := hm.leads_iff.mpr (.inr ⟨dependency, hu, rfl⟩)
    exact before_of_leads h (.head' hfirst (hm.leads_of_leadsTo he))
  refine ⟨?_, ?_, ?_⟩
  · obtain ⟨e, he, hleads⟩ := hm.exists_reference_leadsTo hu
    exact ⟨e, he, hleads, fun e' he' hleads' => hleads'.unique hleads he' he, hbefore e hleads⟩
  · intro hends
    refine ⟨hbefore target hends, fun hbean => ?_⟩
    exact before_writtenBeans_of_resolve h hbean (List.mem_map_of_mem hb) (hbefore target hends)
  · intro _
    refine before_iff_of_resolve h (hm.mem_written_iff.mpr (.inl (hm _ hu))) ?_
    exact List.mem_map_of_mem (List.mem_append_left _ (List.mem_map_of_mem hb))

/-- A bean that depends on a member of another bean. -/
def navigating : ModuleDecl where
  name := "m"
  beans := [
    { name := ⟨"m", "b"⟩, dependencies := [⟨⟨"m", "t"⟩, "x", .nested ["x"]⟩] },
    { name := ⟨"m", "t"⟩ }]

theorem resolve_orders_navigating :
    ∃ resolved, resolve { generateDescriptor := false } navigating = .ok resolved ∧
      Before resolved.written "m:t" "m:b" := by
  have hok : (resolve { generateDescriptor := false } navigating).toOption.isSome := by cbv
  cases h : resolve { generateDescriptor := false } navigating with
  | error fault => rw [h] at hok; cases hok
  | ok resolved =>
    have hhops : navigating.hops = [⟨⟨"m", "t"⟩, [], "x"⟩] := by cbv
    have hends : navigating.LeadsTo "m:t.x" "m:t" :=
      .single ⟨⟨⟨"m", "t"⟩, [], "x"⟩, hhops ▸ List.mem_cons_self, rfl, rfl⟩
    have hlaw := resolve_orders_dependency h List.mem_cons_self List.mem_cons_self
    exact ⟨resolved, rfl, (hlaw.2.1 hends).1⟩

/-- A bean that is written like a member of another bean: a dependency on the member leads to it,
and not to the other bean. -/
def shadowing : ModuleDecl where
  name := "m"
  beans := [
    { name := ⟨"m", "t.x"⟩ },
    { name := ⟨"m", "b"⟩, dependencies := [⟨⟨"m", "t"⟩, "x", .nested ["x"]⟩] },
    { name := ⟨"m", "t"⟩ }]

/-- A bean need not come behind the targets of its dependencies. -/
theorem not_targets_first :
    ¬ ∀ (options : Options) (m : ModuleDecl) (resolved : Resolved),
      resolve options m = .ok resolved → ∀ bean ∈ m.beans,
        ∀ dependency ∈ bean.dependencies,
          Before resolved.written dependency.target.rendered bean.name.rendered := by
  intro hall
  have horder : (resolve { generateDescriptor := false } shadowing).toOption.map
      Resolved.written = some ["m:t.x", "m:b", "m:t"] := by cbv
  cases h : resolve { generateDescriptor := false } shadowing with
  | error fault => rw [h] at horder; cases horder
  | ok resolved =>
    rw [h] at horder
    have hbefore := hall _ shadowing resolved h _ (List.mem_cons_of_mem _ List.mem_cons_self) _
      List.mem_cons_self
    rw [show resolved.written = _ from Option.some.inj horder] at hbefore
    exact absurd hbefore (by decide)

end Injection
