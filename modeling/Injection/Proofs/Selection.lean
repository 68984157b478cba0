import Injection.Import
import Injection.Proofs.KeyMap
import Mathlib.Data.List.Basic

/-!
# Selected imports

Of the imports of a module those count whose component is admitted, of each component the first
one, in the order in which the components are first imported.

## Main definitions

* `ModuleDecl.Selects` — whether the imports of a component count.
* `ModuleDecl.importNames` — the components of the imports, in order.
-/

namespace Injection

/-! ## Keeping the first -/

section KeepFirst

variable {α κ : Type} [DecidableEq κ] {keyOf : α → κ} {a : α}

/-- What is kept is the first of its key, if that key has not been seen. -/
theorem mem_keepFirst_iff {seen : List κ} {list : List α} :
    a ∈ keepFirst keyOf seen list ↔
      list.find? (keyOf · == keyOf a) = some a ∧ keyOf a ∉ seen := by
  fun_induction keepFirst keyOf seen list with
  | case1 => simp
  | case2 seen b rest hb ih =>
    rw [ih, List.find?_cons]
    split
    · next hkey =>
      have hseen : keyOf a ∈ seen := beq_iff_eq.mp hkey ▸ hb
      simp [hseen]
    · rfl
  | case3 seen b rest hb ih =>
    rw [List.mem_cons, ih, List.find?_cons, List.mem_cons, not_or]
    by_cases hkey : keyOf b = keyOf a
    · simp only [hkey, beq_self_eq_true, Option.some.injEq, not_true_eq_false, false_and,
        and_false, or_false]
      exact ⟨fun h => ⟨h.symm, hkey ▸ hb⟩, fun h => h.1.symm⟩
    · have hne : a ≠ b := fun he => hkey (congrArg keyOf he.symm)
      simp [hne, Ne.symm hkey, beq_eq_false_iff_ne.mpr hkey]

/-- The kept ones stand in the order in which their keys come up in the whole list, of which the
ones with other keys have been left out. -/
theorem pairwise_keepFirst_filter (admits : κ → Bool) (seen : List κ) (list : List α) :
    (keepFirst keyOf seen (list.filter fun a => admits (keyOf a))).Pairwise fun a b =>
      (list.map keyOf).idxOf (keyOf a) < (list.map keyOf).idxOf (keyOf b) := by
  induction list generalizing seen with
  | nil => exact .nil
  | cons x rest ih =>
    -- behind another key all places move up by one
    have hmoved : ∀ {a}, keyOf a ≠ keyOf x →
        ((x :: rest).map keyOf).idxOf (keyOf a) = (rest.map keyOf).idxOf (keyOf a) + 1 := by
      intro a hne
      rw [List.map_cons, List.idxOf_cons_ne _ hne.symm]
    have hkept : ∀ seen', (∀ a ∈ keepFirst keyOf seen' (rest.filter fun a => admits (keyOf a)),
        keyOf a ≠ keyOf x) →
        (keepFirst keyOf seen' (rest.filter fun a => admits (keyOf a))).Pairwise fun a b =>
          ((x :: rest).map keyOf).idxOf (keyOf a) < ((x :: rest).map keyOf).idxOf (keyOf b) := by
      intro seen' hne
      refine (ih seen').imp_of_mem fun ha hb hlt => ?_
      rw [hmoved (hne _ ha), hmoved (hne _ hb)]
      exact Nat.succ_lt_succ hlt
    rw [List.filter_cons]
    split
    · next hadmits =>
      rw [keepFirst]
      split
      · next hseen =>
        exact hkept seen fun a ha he => keyOf_notMem_of_mem_keepFirst keyOf ha (he ▸ hseen)
      · have hnew : ∀ a ∈ keepFirst keyOf (keyOf x :: seen)
            (rest.filter fun a => admits (keyOf a)), keyOf a ≠ keyOf x := fun a ha he =>
          keyOf_notMem_of_mem_keepFirst keyOf ha (he ▸ List.mem_cons_self)
        refine .cons (fun a ha => ?_) (hkept _ hnew)
        rw [hmoved (hnew a ha), List.map_cons, List.idxOf_cons_self]
        exact Nat.succ_pos _
    · next hadmits =>
      refine hkept seen fun a ha he => hadmits ?_
      rw [← he]
      exact (List.mem_filter.mp ((keepFirst_sublist keyOf seen _).mem ha)).2

end KeepFirst

/-! ## Look-ups in lists -/

section Find

variable {α κ : Type} [DecidableEq κ] {keyOf : α → κ} {list : List α} {p : α → Bool} {a : α}

/-- A look-up finds the only element of its kind. -/
theorem find?_eq_some_iff_of_unique (h : ∀ a ∈ list, ∀ b ∈ list, p a → p b → a = b) :
    list.find? p = some a ↔ a ∈ list ∧ p a := by
  constructor
  · exact fun hfound => ⟨List.mem_of_find?_eq_some hfound, List.find?_some hfound⟩
  · rintro ⟨hmem, hp⟩
    obtain ⟨b, hb⟩ := Option.isSome_iff_exists.mp (List.find?_isSome.mpr ⟨a, hmem, hp⟩)
    rw [hb, h b (List.mem_of_find?_eq_some hb) a hmem (List.find?_some hb) hp]

/-- If the keys are different, only one element has the key that is looked up. -/
theorem filter_key_eq_toList_find? (hnodup : (list.map keyOf).Nodup) (key : κ) :
    list.filter (keyOf · == key) = (list.find? (keyOf · == key)).toList := by
  induction list with
  | nil => rfl
  | cons a rest ih =>
    obtain ⟨hnew, hrest⟩ := List.nodup_cons.mp hnodup
    rw [List.filter_cons, List.find?_cons]
    by_cases hkey : keyOf a = key
    · have hnone : rest.filter (keyOf · == key) = [] := by
        refine List.filter_eq_nil_iff.mpr fun b hb he => hnew ?_
        exact List.mem_map.mpr ⟨b, hb, (beq_iff_eq.mp he).trans hkey.symm⟩
      simp [hkey, hnone]
    · simp [beq_eq_false_iff_ne.mpr hkey, ih hrest]

end Find

/-! ## Selection -/

namespace ModuleDecl

variable {m : ModuleDecl} {component : ModuleName} {imported : Import}

/-- Whether the imports of a component count: no exclusion names it, and an inclusion does if there
is one. -/
def Selects (m : ModuleDecl) (component : ModuleName) : Prop :=
  component ∉ m.excludes.keys ∧ (m.includes.keys = [] ∨ component ∈ m.includes.keys)

instance : Decidable (m.Selects component) :=
  inferInstanceAs (Decidable (component ∉ m.excludes.keys ∧
    (m.includes.keys = [] ∨ component ∈ m.includes.keys)))

/-- The components of the imports, in order. -/
def importNames (m : ModuleDecl) : List ModuleName := m.imports.map (·.component)

theorem admits_iff : m.admits component = true ↔ m.Selects component := by
  have hempty : m.includes.isEmpty = true ↔ m.includes.keys = [] := by
    simp [KeyMap.isEmpty, KeyMap.keys]
  rw [Selects, ← hempty, ← KeyMap.contains_iff, ← KeyMap.contains_iff, admits, isExcluded,
    isNotIncluded]
  cases m.excludes.contains component <;> cases m.includes.isEmpty <;>
    cases m.includes.contains component <;> simp

/-- A selected import is the first one of its component. -/
theorem mem_selection_iff :
    imported ∈ m.selection ↔
      m.imports.find? (·.component == imported.component) = some imported ∧
        m.Selects imported.component := by
  have hfirst : m.Selects imported.component →
      (m.imports.filter fun other => m.admits other.component).find?
          (·.component == imported.component) =
        m.imports.find? (·.component == imported.component) := by
    intro hselects
    rw [List.find?_filter]
    congr 1
    funext other
    rw [Bool.eq_iff_iff, decide_eq_true_eq, beq_iff_eq, admits_iff]
    exact ⟨fun h => h.2, fun h => ⟨h ▸ hselects, h⟩⟩
  rw [selection, distinctBy, mem_keepFirst_iff]
  constructor
  · rintro ⟨hfound, -⟩
    have hselects : m.Selects imported.component :=
      admits_iff.mp (List.mem_filter.mp (List.mem_of_find?_eq_some hfound)).2
    exact ⟨hfirst hselects ▸ hfound, hselects⟩
  · rintro ⟨hfound, hselects⟩
    exact ⟨(hfirst hselects).trans hfound, List.not_mem_nil⟩

theorem mem_map_component_selection :
    component ∈ m.selection.map (·.component) ↔
      component ∈ m.importNames ∧ m.Selects component := by
  rw [selection, distinctBy, mem_map_keepFirst, List.mem_map, importNames, List.mem_map]
  simp only [List.mem_filter, admits_iff, List.not_mem_nil, not_false_eq_true, and_true]
  constructor
  · rintro ⟨imported, ⟨hmem, hselects⟩, rfl⟩
    exact ⟨⟨imported, hmem, rfl⟩, hselects⟩
  · rintro ⟨⟨imported, hmem, rfl⟩, hselects⟩
    exact ⟨imported, ⟨hmem, hselects⟩, rfl⟩

theorem pairwise_selection (m : ModuleDecl) :
    (m.selection.map (·.component)).Pairwise fun a b =>
      m.importNames.idxOf a < m.importNames.idxOf b :=
  List.pairwise_map.mpr (pairwise_keepFirst_filter m.admits [] m.imports)

end ModuleDecl

end Injection
