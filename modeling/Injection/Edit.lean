import Injection.Declaration

/-!
# Editing declarations

A module's declarations can be put together step by step. Additions go to the end, and a bean is
spoken of by its place among the beans.

## Main definitions

* `Edit` — the steps.
* `ModuleDecl.edit` — the declarations after a step.
-/

namespace Injection

/-- A step in putting a module together. -/
inductive Edit where
  | addBean (name : QualifiedName) (strategy : Strategy)
  | addSocket (name : QualifiedName) (required : Bool)
  | addDependency (bean : Nat) (dependency : Dependency)
  | makeWrapper (bean : Nat)
  | setInit (bean : Nat) (operation : String)
  | setDestroy (bean : Nat) (operation : String)
  | addImport (component : ModuleName) (bindings : List (String × QualifiedName))
  | includeOnly (component : ModuleName)
  | exclude (component : ModuleName)
  | setVersion (version : UInt32)
  | removeBean (bean : Nat)
deriving Inhabited

namespace ModuleDecl

/-- The declarations with one bean changed. -/
def modifyBean (m : ModuleDecl) (index : Nat) (change : Bean → Bean) : ModuleDecl :=
  { m with beans := m.beans.modify index change }

/-- The declarations after a step. -/
def edit (m : ModuleDecl) : Edit → ModuleDecl
  | .addBean name strategy => { m with beans := m.beans ++ [{ name, strategy }] }
  | .addSocket name required => { m with sockets := m.sockets ++ [{ name, required }] }
  | .addDependency index dependency =>
    m.modifyBean index fun bean => { bean with dependencies := bean.dependencies ++ [dependency] }
  | .makeWrapper index => m.modifyBean index fun bean => { bean with isWrapper := true }
  | .setInit index operation => m.modifyBean index fun bean => { bean with init := some operation }
  | .setDestroy index operation =>
    m.modifyBean index fun bean => { bean with destroy := some operation }
  | .addImport component bindings =>
    { m with imports := m.imports ++ [{ component, bindings := .ofList bindings }] }
  | .includeOnly component => { m with includes := m.includes.insert component () }
  | .exclude component => { m with excludes := m.excludes.insert component () }
  | .setVersion version => { m with version }
  | .removeBean index => { m with beans := m.beans.eraseIdx index }

end ModuleDecl

end Injection
