import Injection.Declaration
import Injection.Fault

/-!
# Validation

A module's declarations are sound when each bean is named in the module, no name is declared
twice, and every dependency targets a declared name. A socket may bear the name of another module:
one that stands in for a bean of a component keeps that bean's name.

## Main definitions

* `ModuleDecl.foreign?`, `ModuleDecl.repeated?`, `ModuleDecl.dangling?` — the first fault of each
  kind.
* `ModuleDecl.validate` — the first fault of all.
-/

namespace Injection

/-- The first name that is written like one before it, or like one in `seen`. -/
def firstRepeated (seen : List String) : List QualifiedName → Option QualifiedName
  | [] => none
  | name :: rest =>
    if name.rendered ∈ seen then some name else firstRepeated (name.rendered :: seen) rest

namespace ModuleDecl

variable (m : ModuleDecl)

/-- The first bean that is named in another module. -/
def foreign? : Option Bean := m.beans.find? (·.name.modulePart != m.name)

/-- The first name that was declared before. -/
def repeated? : Option QualifiedName := firstRepeated [] m.declaredNames

/-- The first dependency on a name that is not declared, with its bean. -/
def dangling? : Option (Bean × Dependency) :=
  m.beans.findSome? fun bean =>
    (bean.dependencies.find? fun dependency => !m.declares dependency.target).map (bean, ·)

/-- Checks the declarations: first for foreign beans, then for repeated names, then for
dependencies on undeclared names. -/
def validate : Except ModuleFault Unit :=
  match m.foreign? with
  | some bean => .error (.foreign m.name bean.name)
  | none =>
    match m.repeated? with
    | some name => .error (.duplicate m.name name)
    | none =>
      match m.dangling? with
      | some (bean, dependency) => .error (.malformed m.name bean.name dependency.target)
      | none => .ok ()

end ModuleDecl

end Injection
