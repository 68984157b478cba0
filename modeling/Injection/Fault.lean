import Injection.Name

/-!
# Faults

Why a module, or a composition of modules, cannot be resolved. A fault is a cause; its wording,
its code and its hint are functions of it.

## Main definitions

* `FaultCode` — the stable codes, with a summary and a hint each.
* `Diagnostic` — a message at a declaration.
* `ModuleFault`, `CompositionFault` — the causes, each with `message` and `code`.
-/

namespace Injection

/-! ## Codes -/

/-- The kinds of faults that tools tell apart. -/
inductive FaultCode where
  | configParse
  | malformedDeclaration
  | duplicateDeclaration
  | cycleDetected
  | unsupportedVersion
  | unboundSocket
  | unknownSocketBinding
  | missingComponent
deriving DecidableEq, Inhabited

namespace FaultCode

/-- The stable identifier of a kind of faults. -/
def identifier : FaultCode → String
  | configParse => "E1001"
  | malformedDeclaration => "E2001"
  | duplicateDeclaration => "E2002"
  | cycleDetected => "E2003"
  | unsupportedVersion => "E3001"
  | unboundSocket => "E3002"
  | unknownSocketBinding => "E3003"
  | missingComponent => "E3004"

def summary : FaultCode → String
  | configParse => "Config file parse error"
  | malformedDeclaration => "Dependency targets an undeclared name"
  | duplicateDeclaration => "Name declared more than once"
  | cycleDetected => "Dependency cycle in module"
  | unsupportedVersion => "Unsupported module version"
  | unboundSocket => "Required socket is not bound"
  | unknownSocketBinding => "Binding names an unknown socket"
  | missingComponent => "Imported module not available"

/-- How a kind of faults is usually mended. -/
def hint? : FaultCode → Option String
  | configParse => some "Fix syntax in rime.toml and retry."
  | malformedDeclaration => some "Declare the target as a bean or socket of the same module."
  | duplicateDeclaration => none
  | cycleDetected => some
      "Break the cycle, e.g. by injecting a supplier or moving a dependency to a setter."
  | unsupportedVersion => some "Recompile the component module with this compiler."
  | unboundSocket => some "Bind the socket in the importing module, or declare it optional."
  | unknownSocketBinding => none
  | missingComponent => some "Make the imported module available, or exclude it."

end FaultCode

/-! ## Faults of one module -/

/-- A message at the declaration of a name. -/
structure Diagnostic where
  anchor : QualifiedName
  message : String
deriving Inhabited

/-- Why a module could not be resolved. -/
inductive ModuleFault where
  /-- A bean depends on a name that is not declared. -/
  | malformed (home : ModuleName) (bean target : QualifiedName)
  /-- A name is declared twice. -/
  | duplicate (home : ModuleName) (name : QualifiedName)
  /-- A bean is named in another module. -/
  | foreign (home : ModuleName) (name : QualifiedName)
  /-- Dependencies form cycles. -/
  | cycles (home : ModuleName) (diagnostics : List Diagnostic)
deriving Inhabited

namespace ModuleFault

def message : ModuleFault → String
  | malformed home bean target =>
    s!"bean {bean} in module {home} depends on {target}, " ++
      "which is neither a bean nor a socket of the module"
  | duplicate home name => s!"{name} is declared more than once in module {home}"
  | foreign home name => s!"{name} does not belong to module {home}"
  | cycles home diagnostics =>
    s!"module {home} has {diagnostics.length} dependency cycle diagnostic(s)"

def code : ModuleFault → FaultCode
  | malformed .. => .malformedDeclaration
  | duplicate .. => .duplicateDeclaration
  | foreign .. => .malformedDeclaration
  | cycles .. => .cycleDetected

/-- The messages at the declarations that form cycles. -/
def diagnostics : ModuleFault → List Diagnostic
  | cycles _ diagnostics => diagnostics
  | _ => []

end ModuleFault

/-! ## Faults of a composition -/

/-- Why a module of a composition could not be resolved. -/
inductive CompositionFault where
  /-- A component has another version than the supported one. -/
  | unsupportedVersion (component : ModuleName) (found supported : UInt32)
  /-- An import leaves a required socket without a provider. -/
  | unboundSocket (importer component : ModuleName) (socket : QualifiedName)
  /-- An import binds a socket that the component does not have. -/
  | unknownSocket (importer component : ModuleName) (socket : String)
  /-- An imported module is not there. -/
  | missingComponent (importer component : ModuleName)
  /-- The module itself could not be resolved. -/
  | resolve (error : ModuleFault)
deriving Inhabited

namespace CompositionFault

def message : CompositionFault → String
  | unsupportedVersion component found supported =>
    s!"module {component} has version {found}, this compiler supports version {supported}"
  | unboundSocket importer component socket =>
    s!"required socket {socket} of module {component} is not bound by {importer}"
  | unknownSocket importer component socket =>
    s!"module {importer} binds socket '{socket}', which module {component} does not declare"
  | missingComponent importer component =>
    s!"module {importer} imports {component}, which is not available"
  | resolve error => error.message

def code : CompositionFault → FaultCode
  | unsupportedVersion .. => .unsupportedVersion
  | unboundSocket .. => .unboundSocket
  | unknownSocket .. => .unknownSocketBinding
  | missingComponent .. => .missingComponent
  | resolve error => error.code

/-- The messages at the declarations that form cycles. -/
def diagnostics : CompositionFault → List Diagnostic
  | resolve error => error.diagnostics
  | _ => []

end CompositionFault

end Injection
