import Injection.KeyMap
import Injection.Name

/-!
# Declarations

What a module declares: beans with their dependencies, sockets that another module has to plug,
and imports of component modules. Order counts everywhere: it decides the layout of diagrams and
which of two candidates comes first.

## Main definitions

* `Bean`, `Socket`, `Import`, `ModuleDecl` — the declarations.
* `ModuleDecl.bean?`, `ModuleDecl.socket?`, `ModuleDecl.declares` — look-ups, in which the first
  declaration of a name counts.
-/

namespace Injection

/-- How many instances of a bean a module creates. -/
inductive Strategy where
  /-- One instance, shared by the whole module. -/
  | singleton
  /-- A new instance at each place of injection. -/
  | prototype
deriving DecidableEq, Inhabited

/-- How a dependency reaches what it injects. -/
inductive DependencyKind where
  /-- The target itself is injected. -/
  | direct
  /-- A member of the target is injected, reached by navigating `path`. -/
  | nested (path : List String)
deriving DecidableEq, Inhabited

/-- One place of injection of a bean. -/
structure Dependency where
  /-- The bean or socket that is injected, or that owns the injected member. -/
  target : QualifiedName
  /-- The parameter or setter that takes the injected value. -/
  label : String
  kind : DependencyKind := .direct
deriving BEq, Inhabited

namespace Dependency

/-- The members to navigate, none for a direct dependency. -/
def path (dependency : Dependency) : List String :=
  match dependency.kind with
  | .direct => []
  | .nested path => path

/-- Whether a member of the target is injected, and not the target itself. -/
def isNested (dependency : Dependency) : Bool := !dependency.path.isEmpty

end Dependency

/-- A component that can be injected. -/
structure Bean where
  name : QualifiedName
  strategy : Strategy := .singleton
  /-- Whether the bean supplies the value that is injected, instead of being it. -/
  isWrapper : Bool := false
  dependencies : List Dependency := []
  /-- The operation to call after creation, if any. -/
  init : Option String := none
  /-- The operation to call before disposal, if any. -/
  destroy : Option String := none
deriving BEq, Inhabited

/-- Something that the importing module is expected to supply. -/
structure Socket where
  name : QualifiedName
  required : Bool := true
deriving BEq, Inhabited

/-- A component module that another module uses. -/
structure Import where
  component : ModuleName
  /-- For a socket's local name, what the importing module plugs into it. -/
  bindings : KeyMap QualifiedName := .empty
deriving BEq, Inhabited

/-- All that a module declares. -/
structure ModuleDecl where
  name : ModuleName
  version : UInt32 := 1
  beans : List Bean := []
  sockets : List Socket := []
  imports : List Import := []
  /-- When not empty, the only imports that count. -/
  includes : NameSet := .empty
  /-- The imports that never count. -/
  excludes : NameSet := .empty
deriving BEq, Inhabited

namespace ModuleDecl

variable (m : ModuleDecl)

/-- The first bean declared under a name. -/
def bean? (name : QualifiedName) : Option Bean := m.beans.find? (·.name == name)

/-- The first socket declared under a name. -/
def socket? (name : QualifiedName) : Option Socket := m.sockets.find? (·.name == name)

def declares (name : QualifiedName) : Bool := (m.bean? name).isSome || (m.socket? name).isSome

/-- The declared names: the beans, then the sockets, in order. -/
def declaredNames : List QualifiedName := m.beans.map (·.name) ++ m.sockets.map (·.name)

/-- A name is declared exactly if it is among the declared names. -/
theorem declares_iff {name : QualifiedName} :
    m.declares name = true ↔ ∃ n ∈ m.declaredNames, n.rendered = name.rendered := by
  simp only [declares, bean?, socket?, declaredNames, Bool.or_eq_true, List.find?_isSome,
    QualifiedName.beq_iff, List.mem_append, List.mem_map]
  constructor
  · rintro (⟨x, hx, h⟩ | ⟨x, hx, h⟩)
    · exact ⟨x.name, .inl ⟨x, hx, rfl⟩, h⟩
    · exact ⟨x.name, .inr ⟨x, hx, rfl⟩, h⟩
  · rintro ⟨_, ⟨x, hx, rfl⟩ | ⟨x, hx, rfl⟩, h⟩
    · exact .inl ⟨x, hx, h⟩
    · exact .inr ⟨x, hx, h⟩

end ModuleDecl

end Injection
