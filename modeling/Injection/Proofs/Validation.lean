import Injection.Proofs.Links
import Injection.Validation

/-!
# What validation accepts

A module passes exactly if its beans are named in it, no name is declared twice, and it is closed.
-/

namespace Injection

/-- No name is repeated if the names are different from each other and none has been seen. -/
theorem firstRepeated_eq_none_iff {seen : List String} {names : List QualifiedName} :
    firstRepeated seen names = none ↔
      (names.map QualifiedName.rendered).Nodup ∧ ∀ name ∈ names, name.rendered ∉ seen := by
  induction names generalizing seen with
  | nil => simp [firstRepeated]
  | cons name rest ih =>
    rw [firstRepeated, List.map_cons, List.nodup_cons, List.forall_mem_cons]
    split
    · next h => simp [h]
    · next h =>
      rw [ih]
      simp only [List.mem_cons, List.mem_map, not_or]
      grind

namespace ModuleDecl

variable {m : ModuleDecl}

theorem declares_iff_mem {name : QualifiedName} :
    m.declares name = true ↔ name.rendered ∈ m.declared := by
  simp [declares_iff, declared]

theorem dangling?_eq_none_iff : m.dangling? = none ↔ m.Closed := by
  simp only [dangling?, List.findSome?_eq_none_iff, Option.map_eq_none_iff, List.find?_eq_none,
    Bool.not_eq_true', Bool.not_eq_false, declares_iff_mem]
  constructor
  · rintro h ⟨source, dependency⟩ hu
    obtain ⟨bean, hb, hd, -⟩ := mem_uses_iff.mp hu
    exact h bean hb dependency hd
  · intro h bean hb dependency hd
    exact h (bean.name.rendered, dependency) (mem_uses_iff.mpr ⟨bean, hb, hd, rfl⟩)

theorem foreign?_eq_none_iff :
    m.foreign? = none ↔ ∀ bean ∈ m.beans, bean.name.modulePart = m.name := by
  simp [foreign?]

theorem repeated?_eq_none_iff : m.repeated? = none ↔ m.declared.Nodup := by
  simp [repeated?, firstRepeated_eq_none_iff, declared]

/-- What validation accepts. -/
theorem validate_eq_ok_iff :
    m.validate = .ok () ↔
      (∀ bean ∈ m.beans, bean.name.modulePart = m.name) ∧ m.declared.Nodup ∧ m.Closed := by
  rw [← foreign?_eq_none_iff, ← repeated?_eq_none_iff, ← dangling?_eq_none_iff, validate]
  cases m.foreign? <;> cases m.repeated? <;> cases m.dangling? <;> simp

end ModuleDecl

end Injection
